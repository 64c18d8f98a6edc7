import Smalltalk.Proofs.Concluding

/-!
# What devices answer

The devices are trusted with the numbers that they answer. Their own numbers stay in range whatever they
are asked, and the pixels of a transfer are counted by the raster engine: where the count is answered, the
request for the transfer has been recorded. Handles, sizes and times become objects if they are too great.
-/

namespace Smalltalk

open Outcome Device Rejects

/-- Nothing but requests and files has changed. -/
theorem Device.Devices.Ranged.alike {d d' : Devices} (h : d.Ranged) (mouse : d'.mouse = d.mouse)
    (buttons : d'.buttons = d.buttons) (keys : d'.keys = d.keys)
    (displaySize : d'.displaySize = d.displaySize) :
    d'.Ranged := ⟨mouse ▸ h.mouse, buttons ▸ h.buttons, keys ▸ h.keys, displaySize ▸ h.display⟩

theorem Device.Devices.Ranged.closeFile {d : Devices} (h : d.Ranged) {guest : Nat} :
    (d.closeFile guest).2.Ranged := by
  rw [Devices.closeFile]
  split <;> exact h.alike rfl rfl rfl rfl

theorem Device.Devices.Ranged.setDisplay {d : Devices} (h : d.Ranged) {form : Form}
    (hform : Value.InRange form.width ∧ Value.InRange form.height) : (d.setDisplay form).2.Ranged := by
  simp only [Devices.setDisplay]
  split
  · exact h.alike rfl rfl rfl rfl
  · exact ⟨h.mouse, h.buttons, h.keys, hform⟩

/-- The raster engine was asked for a transfer, and answers it so. -/
def Device.Devices.Carried (b : Blit) (answer : Blit × Option Rect) (d : Devices) : Prop :=
  .blit b ∈ d.requests ∧ (d.copyBits b).1 = some answer

namespace Device.Devices

variable {d : Devices} {b : Blit} {answer : Blit × Option Rect}

/-- The answer follows the script. -/
theorem copyBits_record (r : Request) : ((d.record r).copyBits b).1 = (d.copyBits b).1 := by
  cases hfails : d.script.rasterFails <;> cases hfill : d.script.fill <;> simp [copyBits, record, hfails, hfill]

theorem Carried.record (h : d.Carried b answer) (r : Request) : (d.record r).Carried b answer :=
  ⟨List.mem_cons_of_mem r h.1, (copyBits_record r).trans h.2⟩

theorem carried_copyBits (h : (d.copyBits b).1 = some answer) : (d.copyBits b).2.Carried b answer := by
  have hrecord : (d.copyBits b).2 = d.record (.blit b) := by
    simp only [copyBits]
    repeat' split
    all_goals rfl
  rw [hrecord]
  exact ⟨List.mem_cons_self, (copyBits_record _).trans h⟩

theorem Carried.inRange (h : d.Carried b answer) (hcounts : d.Counts) : Value.InRange answer.1.bitCount :=
  hcounts b h.1 answer.1 answer.2 h.2

end Device.Devices

/-- A machine in range whose raster engine has carried out a transfer. -/
def Machine.Painted (slack : Nat) (b : Blit) (answer : Blit × Option Rect) (m : Machine) : Prop :=
  m.Ranged slack ∧ m.devices.Carried b answer

namespace Attempt

variable {R : Int → Machine → Prop} {α : Type} {P : α → Prop} {slack n i : Nat} {v : Value} {o : Object}

theorem keeps_onDevices {f : Devices → α × Devices}
    (hf : ∀ d : Devices, d.Ranged → (f d).2.Ranged ∧ P (f d).1) :
    Keeps R slack (onDevices f) P := by
  refine ⟨fun m hm => ?_⟩
  have f := hm.outfitted
  obtain ⟨hdevices, hanswer⟩ := hf m.devices f.devices
  exact ⟨⟨hm.memory, hm.registers, f.array, f.nil, f.falseObject, f.trueObject, f.pool, hdevices⟩,
    hanswer⟩

theorem keeps_recordRequest {r : Request} : Keeps R slack (recordRequest r) fun _ => True :=
  keeps_onDevices fun _ hd => ⟨hd.alike rfl rfl rfl rfl, trivial⟩

/-- A number that a device answers. -/
theorem keeps_devices : Keeps R slack (get : Attempt Machine) fun m => m.devices.Ranged :=
  Primitive.keeps_get.mono fun _ _ h => ⟨h.1, h.2.outfitted.devices⟩

theorem keeps_fieldOf (ho : o.Ranged) : Keeps R slack (fieldOf o i) fun x => x.Ranged :=
  keeps_ofOption.mono fun _ _ h => ⟨h.1, ho.field h.2⟩

theorem keeps_integer32 (hv : v.Ranged) : Keeps R slack (integer32 v) fun k => Value.InRange k := by
  refine .next keeps_ofOption fun k hk => .next keeps_glance fun _ _ => ?_
  cases v with
  | small j => exact .answer (Option.some.inj hk ▸ hv.inRange)
  | ref index generation => cases hk

/-- The size of a form comes out of the heap. -/
theorem keeps_loadForm : Keeps R slack (loadForm v) fun form =>
    Value.InRange form.width ∧ Value.InRange form.height := by
  refine .next keeps_object? fun found hfound => .next keeps_ofOption fun o ho => ?_
  refine .next keeps_glance fun _ _ => ?_
  have hranged := hfound o ho
  refine .next (keeps_fieldOf hranged) fun x hx => .next (keeps_integer32 hx) fun width hwidth => ?_
  refine .next (keeps_fieldOf hranged) fun y hy => .next (keeps_integer32 hy) fun height hheight => ?_
  refine .next keeps_glance fun _ _ => .next keeps_glance fun _ _ => .next keeps_glance fun _ _ => ?_
  refine .next keeps_glance fun _ _ => .next keeps_glance fun _ _ => .next keeps_glance fun _ _ => ?_
  exact .answer ⟨hwidth, hheight⟩

theorem keeps_storeBits {form : Value} {bits : Array UInt32} :
    Keeps R slack (liftM (storeBits form bits) : Attempt Unit) fun _ => True := by
  refine keeps_lift (.next Action.keeps_glance fun bitmap _ => .next Action.keeps_glance fun o _ => ?_)
  cases o.words? with
  | none => exact Action.ends_throw rfl
  | some words =>
    exact ⟨fun _ hm => ⟨hm.withMemory (hm.memory.modify fun _ ho => (hm.memory _ _ ho).body rfl rfl), trivial⟩⟩

section
variable {b : Blit} {answer : Blit × Option Rect} {x : Attempt α}

theorem carries (b : Blit) : Ends (refused R slack) (Machine.Ranged slack) (onDevices fun d => d.copyBits b)
    fun found m => m.Ranged slack ∧ ∀ answer, found = some answer → m.devices.Carried b answer := by
  refine (keeps_onDevices (P := fun _ => True) fun d hd => ⟨?_, trivial⟩).of_ok fun m found m' hm h hrun => ?_
  · simp only [Devices.copyBits]
    repeat' split
    all_goals exact hd.alike rfl rfl rfl rfl
  · obtain ⟨rfl, rfl⟩ : (m.devices.copyBits b).1 = found ∧
        ({ m with devices := (m.devices.copyBits b).2 } : Machine) = m' := by
      simpa [onDevices] using hrun
    exact ⟨h.1, fun _ hanswer => Devices.carried_copyBits hanswer⟩

theorem carried {found : Option (Blit × Option Rect)} : Ends (refused R slack)
    (fun m => m.Ranged slack ∧ ∀ answer, found = some answer → m.devices.Carried b answer) (ofOption found)
    fun answer m => m.Painted slack b answer := by
  cases found with
  | none => exact .throw fun _ hm => hm.1
  | some answer => exact .pure fun _ hm => ⟨hm.1, hm.2 answer rfl⟩

/-- What leaves the devices alone. -/
theorem painted (hx : Keeps R slack x P) (hdevices : ∀ m a m', x m = .ok a m' → m'.devices = m.devices) :
    Ends (refused R slack) (Machine.Painted slack b answer) x (keeping (Machine.Painted slack b answer) P) :=
  (hx.pre fun _ hm => hm.1).of_ok fun m a m' hm h hrun => ⟨⟨h.1, hdevices m a m' hrun ▸ hm.2⟩, h.2⟩

theorem painted_glance [Observes x] : Ends (refused R slack) (Machine.Painted slack b answer) x
    (keeping (Machine.Painted slack b answer) fun _ => True) :=
  painted keeps_glance fun _ _ _ hrun => Observes.of_ok hrun ▸ rfl

end

end Attempt

namespace Primitive

open Attempt

variable {R : Int → Machine → Prop} {slack n : Nat} {v : Value} {d : Devices}

/-! ### Giving way, and what is read from devices -/

theorem relinquish_concludes : Concludes R slack (relinquish n) := by
  have rest : Concludes R slack (do
      modify fun m => { m with devices := m.devices.takeEvent.2 }
      return .done) :=
    .next (keeps_onDevices (f := fun d => ((), d.takeEvent.2)) (P := fun _ => True) fun _ hd =>
      ⟨hd.alike rfl rfl rfl rfl, trivial⟩) fun _ _ => finished
  match n with
  | 0 => exact rest
  | 1 => exact .next keeps_glance fun _ _ => .next (keeps_lift Action.keeps_pop) fun _ _ => rest
  | n + 2 => exact .next keeps_decline fun _ (_ : True) => rest

theorem integerPoint_concludes {p : Int × Int} (hp : Value.InRange p.1 ∧ Value.InRange p.2) :
    Concludes R slack (do answer n (← (integerPoint p : Attempt Value))) :=
  answering_concludes (keeps_lift (.next (Action.keeps_immediate hp.1) fun _ hx =>
    .next (Action.keeps_immediate hp.2) fun _ hy => Action.keeps_makePoint hx hy))

theorem mousePoint_concludes : Concludes R slack (mousePoint n) :=
  .next keeps_devices fun _ hd => integerPoint_concludes hd.mouse

theorem screenSize_concludes : Concludes R slack (screenSize n) :=
  .next keeps_devices fun _ hd => integerPoint_concludes hd.display

theorem mouseButtons_concludes : Concludes R slack (mouseButtons n) :=
  .next keeps_devices fun _ hd => answering_concludes (keeps_lift (Action.keeps_immediate hd.buttons))

/-- A key, or else nil. -/
theorem keeps_keyCode {key : Option Int} (hkey : ∀ k ∈ key, Value.InRange k) :
    Action.Keeps R slack (keyCode key) fun v => v.Ranged := by
  cases key with
  | none => exact Action.keeps_nil
  | some k => exact Action.keeps_immediate (hkey k rfl)

theorem keyboardNext_concludes : Concludes R slack (keyboardNext n) := by
  refine .next (P := fun key => ∀ k ∈ key, Value.InRange k)
    (keeps_onDevices fun d hd => ⟨⟨hd.mouse, hd.buttons, fun key hkey => ?_, hd.display⟩, fun k hk => ?_⟩)
    fun _ hkey => answering_concludes (keeps_lift (keeps_keyCode hkey))
  · exact hd.keys key (List.mem_of_mem_tail hkey)
  · exact hd.keys k (List.mem_of_mem_head? hk)

theorem keyboardPeek_concludes : Concludes R slack (keyboardPeek n) :=
  .next keeps_devices fun _ hd => answering_concludes (keeps_lift (keeps_keyCode fun k hk =>
    hd.keys k (List.mem_of_mem_head? hk)))

/-! ### Forms -/

theorem beCursor_concludes : Concludes R slack (beCursor n) := by
  refine .next keeps_glance fun _ _ => .next keeps_glance fun _ _ => .next keeps_glance fun _ _ => ?_
  refine .next keeps_glance fun _ _ => .next keeps_glance fun _ _ => .next keeps_glance fun _ _ => ?_
  refine .next keeps_glance fun _ _ => .next keeps_glance fun _ _ => .next keeps_glance fun _ _ => ?_
  refine .next keeps_glance fun _ _ => .next keeps_recordRequest fun _ _ => ?_
  exact .next (keeps_lift Action.keeps_popN) fun _ _ => finished

theorem beDisplay_concludes : Concludes R slack (beDisplay n) := by
  refine .next keeps_stackObject fun display hdisplay => .next keeps_loadForm fun form hform => ?_
  refine .next (keeps_onDevices (P := fun _ => True) fun d hd => ⟨hd.setDisplay hform, trivial⟩) fun _ _ => ?_
  refine .next keeps_glance fun _ _ => .next keeps_glance fun _ _ => ?_
  exact .next (keeps_lift (Action.keeps_store hdisplay)) fun _ _ =>
    finished

/-- A count of pixels is rejected only if the raster engine miscounts. -/
theorem ends_bitCount (hcounts : ∀ n m, ¬m.devices.Counts → R n m) {b blit : Blit} {area : Option Rect} :
    Ends (refused R slack) (Machine.Painted slack b (blit, area))
      (liftM (Action.immediate blit.bitCount) : Attempt Value) (keeping (Machine.Ranged slack) Value.Ranged) := by
  refine ends_lift ⟨fun m hm => ?_⟩
  cases hrun : Action.immediate blit.bitCount m with
  | ok v m' =>
    obtain ⟨hrange, rfl, rfl⟩ := Action.immediate_ok.1 hrun
    exact ⟨hm.1, Value.ranged_small hrange⟩
  | error e m' =>
    obtain rfl := Action.immediate_error hrun
    refine ⟨hm.1.memory, fun n _ => hcounts n m fun h => ?_⟩
    rw [Action.immediate, Value.immediate_of_inRange (hm.2.inRange h)] at hrun
    cases hrun

/-- What follows a transfer leaves the devices alone, so the count that is answered is the one that the
raster engine has answered. -/
theorem paint_concludes (hcounts : ∀ n m, ¬m.devices.Counts → R n m) {b blit : Blit}
    {area : Option Rect} {receiver : Value} :
    Ends (refused R slack) (Machine.Painted slack b (blit, area)) (do
      let dest ← liftM (Action.fetch receiver 0)
      liftM (storeBits dest blit.dest.bits)
      match area with
      | none => pure ()
      | some area =>
        if dest = (← liftM (Action.special Special.theDisplay)) then
          recordRequest (.showArea blit.dest area)
      liftM (Action.popN n)
      if blit.rule = 22 ∨ blit.rule = 32 then
        answer 0 (← Action.immediate blit.bitCount)
      else
        return .done) fun c m => m.Concluded slack c := by
  have counted : Ends (refused R slack) (Machine.Painted slack b (blit, area)) (do
      liftM (Action.popN n)
      if blit.rule = 22 ∨ blit.rule = 32 then
        answer 0 (← Action.immediate blit.bitCount)
      else
        return .done) fun c m => m.Concluded slack c := by
    refine .next (painted (keeps_lift Action.keeps_popN) fun m u m' hrun => ?_) fun _ _ => ?_
    · obtain ⟨-, rfl⟩ := Action.popN_ok.1 (lift_ok.1 hrun)
      rfl
    refine .ite (fun _ => ?_) fun _ => (finished).pre fun _ hm => hm.1
    exact .next (ends_bitCount hcounts) fun _ hv => answer_concludes hv
  refine .next painted_glance fun dest _ => .next (painted keeps_storeBits fun m u m' hrun => ?_) fun _ _ => ?_
  · obtain ⟨bitmap, m₁, hfetch, hrest⟩ := bind_ok.1 (lift_ok.1 hrun)
    obtain ⟨-, rfl⟩ := Action.fetch_ok.1 hfetch
    obtain ⟨o, m₂, hobject, hrest⟩ := bind_ok.1 hrest
    obtain ⟨-, rfl⟩ := Action.object_ok.1 hobject
    cases hwords : o.words? with
    | none => simp [hwords, throw_ok] at hrest
    | some words =>
      simp only [hwords, Action.modifyMemory_ok] at hrest
      exact hrest ▸ rfl
  cases area with
  | none => exact counted
  | some area =>
    refine .next painted_glance fun display _ => .ite (fun _ => ?_) fun _ => counted
    refine .next (P := fun _ => True) ⟨fun m hm => ?_⟩ fun _ _ => counted
    exact ⟨⟨((keeps_recordRequest (R := R)).run m hm.1).1, hm.2.record _⟩, trivial⟩

theorem transferBits_concludes (hcounts : ∀ n m, ¬m.devices.Counts → R n m) {receiver : Value}
    {alpha : Option Int} : Concludes R slack (transferBits n receiver alpha) := by
  refine .next keeps_glance fun b _ => .bind (carries b) fun found => .bind carried fun answer => ?_
  obtain ⟨blit, area⟩ := answer
  exact paint_concludes hcounts

theorem copyBits_concludes (hcounts : ∀ n m, ¬m.devices.Counts → R n m) :
    Concludes R slack (copyBits n) := by
  refine .next keeps_glance fun _ _ => .next keeps_glance fun receiver _ => ?_
  refine .ite (fun _ => ?_) fun _ => transferBits_concludes hcounts
  exact .next keeps_glance fun alpha _ => transferBits_concludes hcounts

theorem reverseDisplay_concludes : Concludes R slack (reverseDisplay n) :=
  .next (keeps_onDevices (P := fun _ => True) fun _ hd => ⟨hd.alike rfl rfl rfl rfl, trivial⟩) fun _ _ =>
    finished

end Primitive

/-! ### Files -/

namespace Attempt

variable {R : Int → Machine → Prop} {α : Type} {slack n : Nat} {v : Value} {z : Attempt Value}

theorem keeps_onFiles {f : FileSystem → Option (α × FileSystem)} : Keeps R slack (onFiles f) fun _ => True :=
  .next keeps_glance fun _ _ => .next keeps_glance fun found _ =>
    .next (keeps_onDevices (f := fun d => ((), { d with files := found.2 })) (P := fun _ => True)
      fun _ hd => ⟨hd.alike rfl rfl rfl rfl, trivial⟩) fun _ _ => .answer trivial

theorem keeps_secondsValue {seconds : Int} : Keeps R slack (secondsValue seconds) fun v => v.Ranged :=
  .next keeps_glance fun _ _ => keeps_newPositive32

theorem keeps_pinValue : Keeps R slack (pinValue v) fun _ => True :=
  keeps_lift ⟨fun _ hm => ⟨hm.withMemory (hm.memory.of_slots rfl), trivial⟩⟩

theorem keeps_buildEntry {e : Devices.EntryInfo} : Keeps R slack (buildEntry e) fun v => v.Ranged := by
  refine .next (keeps_lift Action.keeps_makeString) fun name hname => .next keeps_pinValue fun _ _ => ?_
  refine .next keeps_secondsValue fun created hcreated => .next keeps_pinValue fun _ _ => ?_
  refine .next keeps_secondsValue fun modified hmodified => .next keeps_pinValue fun _ _ => ?_
  refine .next keeps_newPositive32 fun size hsize => .next keeps_pinValue fun _ _ => ?_
  refine .next (keeps_lift Action.keeps_truth) fun isDirectory hkind => ?_
  refine .next (keeps_lift Action.keeps_special) fun cls hcls => keeps_lift (Action.keeps_allocate ?_)
  have hsize : 5 ≤ maxFields := by decide
  refine ⟨hcls, hsize, fun x hx => ?_⟩
  simp only [Object.ofPointers, List.mem_toArray, List.mem_cons, List.not_mem_nil, or_false] at hx
  rcases hx with rfl | rfl | rfl | rfl | rfl
  · exact hname
  · exact hcreated
  · exact hmodified
  · exact hkind
  · exact hsize

/-- The pins are released however it ends. -/
theorem keeps_entryArray {e : Devices.EntryInfo} : Keeps R slack (entryArray e) fun v => v.Ranged := by
  have hbuild : Keeps (fun _ _ => False) slack (buildEntry e) fun v => v.Ranged := keeps_buildEntry
  refine ⟨fun m hm => ?_⟩
  unfold entryArray
  dsimp only
  cases hrun : buildEntry e m with
  | ok v m' =>
    obtain ⟨hm', hv⟩ := hbuild.ok hm hrun
    exact ⟨hm'.withMemory (hm'.memory.of_slots rfl), hv⟩
  | error refusal m' =>
    have hend := hbuild.error hm hrun
    cases refusal with
    | declined => exact Machine.Ranged.withMemory hend (hend.memory.of_slots rfl)
    | fault f => exact ⟨hend.1.of_slots rfl, fun n hn => (hend.2 n hn).elim⟩

end Attempt

namespace Primitive

open Attempt

variable {R : Int → Machine → Prop} {slack n depth : Nat} {path : String} {writable : Bool}

theorem fileAtEnd_concludes : Concludes R slack (fileAtEnd n) :=
  .next keeps_glance fun _ _ => .next keeps_glance fun _ _ => .next keeps_glance fun _ _ =>
    .next keeps_glance fun _ _ => .next keeps_glance fun _ _ => .next keeps_glance fun _ _ =>
      answerTruth_concludes

theorem fileClose_concludes : Concludes R slack (fileClose n) :=
  .next keeps_glance fun _ _ => .next keeps_glance fun _ _ =>
    .next (keeps_onDevices (P := fun _ => True) fun _ hd => ⟨hd.closeFile, trivial⟩) fun _ _ =>
      .next keeps_glance fun _ _ => answering_concludes keeps_stackValue

theorem filePosition_concludes : Concludes R slack (filePosition n) :=
  .next keeps_glance fun _ _ => .next keeps_glance fun _ _ => .next keeps_glance fun _ _ =>
    .next keeps_glance fun _ _ => answering_concludes keeps_newPositive32

theorem fileSize_concludes : Concludes R slack (fileSize n) :=
  .next keeps_glance fun _ _ => .next keeps_glance fun _ _ => .next keeps_glance fun _ _ =>
    .next keeps_glance fun _ _ => answering_concludes keeps_newPositive32

/-- A handle is answered only if it is immediate. -/
theorem openNamed_concludes : Concludes R slack (openNamed path writable) := by
  refine .next keeps_devices fun m hm => .next keeps_ofOption fun opened hopened => ?_
  obtain ⟨handle, devices⟩ := opened
  have hdevices : devices.Ranged := by
    obtain ⟨found, -, hfound⟩ := Option.bind_eq_some_iff.1 hopened
    obtain ⟨-, rfl⟩ := Prod.mk.inj (Option.some.inj hfound)
    exact hm.alike rfl rfl rfl rfl
  refine .next (keeps_onDevices (f := fun _ => ((), devices)) (P := fun _ => True)
    fun _ _ => ⟨hdevices, trivial⟩)
    fun _ _ => ?_
  cases hhandle : Value.ofInt? handle with
  | some v => exact answer_concludes (Value.ranged_of_ofInt? hhandle)
  | none =>
    exact .next (keeps_onDevices (P := fun _ => True) fun _ hd => ⟨hd.closeFile, trivial⟩) fun _ _ =>
      .throw fun _ hm => hm

theorem fileOpen_concludes : Concludes R slack (fileOpen n) := by
  refine .next keeps_glance fun _ _ => .next keeps_glance fun path _ => .next keeps_glance fun flag _ => ?_
  refine .next keeps_glance fun _ _ => .ite (fun _ => openNamed_concludes) fun _ => ?_
  refine .next keeps_glance fun _ _ => .ite (fun _ => openNamed_concludes) fun _ => ?_
  exact .throw fun _ hm => hm

theorem fileRead_concludes : Concludes R slack (fileRead n) := by
  refine .next keeps_glance fun _ _ => .next keeps_glance fun _ _ => .next keeps_glance fun range _ => ?_
  obtain ⟨buffer, first, count⟩ := range
  refine .next keeps_glance fun _ _ => .next keeps_onFiles fun part _ => .next keeps_glance fun _ _ => ?_
  refine .next keeps_glance fun _ _ => .next keeps_glance fun bytes _ => ?_
  exact .next (keeps_modifyMemory fun _ ho => ho.body rfl rfl) fun _ _ =>
    answering_concludes keeps_newPositive32

theorem fileWrite_concludes : Concludes R slack (fileWrite n) := by
  refine .next keeps_glance fun _ _ => .next keeps_glance fun _ _ => .next keeps_glance fun range _ => ?_
  obtain ⟨buffer, first, count⟩ := range
  refine .next keeps_glance fun _ _ => .next keeps_glance fun _ _ => .next keeps_glance fun _ _ => ?_
  exact .next keeps_onFiles fun _ _ => answering_concludes keeps_newPositive32

/-- A change of the files, after which a value of the stack is answered. -/
theorem changeFiles_concludes {f : FileSystem → Option FileSystem} : Concludes R slack (do
    changeFiles f
    answer n (← Attempt.stackValue depth)) :=
  .next keeps_onFiles fun _ _ => answering_concludes keeps_stackValue

theorem fileSetPosition_concludes : Concludes R slack (fileSetPosition n) :=
  .next keeps_glance fun _ _ => .next keeps_glance fun _ _ => .next keeps_glance fun _ _ =>
    .next keeps_glance fun _ _ => changeFiles_concludes

theorem fileDelete_concludes : Concludes R slack (fileDelete n) :=
  .next keeps_glance fun _ _ => .next keeps_glance fun _ _ => changeFiles_concludes

theorem fileRename_concludes : Concludes R slack (fileRename n) :=
  .next keeps_glance fun _ _ => .next keeps_glance fun _ _ => .next keeps_glance fun _ _ =>
    changeFiles_concludes

theorem createDirectory_concludes : Concludes R slack (createDirectory n) :=
  .next keeps_glance fun _ _ => .next keeps_glance fun _ _ => changeFiles_concludes

theorem pathDelimiter_concludes : Concludes R slack (pathDelimiter n) :=
  .next keeps_glance fun _ _ => .next keeps_glance fun _ _ => answering_concludes
    (keeps_lift (.next Action.keeps_special fun _ _ => Action.keeps_fetch.mono fun _ _ h => ⟨h.1, h.2.2⟩))

theorem lookupEntry_concludes : Concludes R slack (lookupEntry n) := by
  refine .next keeps_glance fun _ _ => .next keeps_glance fun _ _ => .next keeps_glance fun _ _ => ?_
  refine .next keeps_glance fun _ _ => .next keeps_glance fun _ _ => .next keeps_glance fun _ _ => ?_
  refine .next keeps_glance fun found _ => ?_
  cases found with
  | some e => exact answering_concludes keeps_entryArray
  | none => exact answering_concludes keeps_nil

/-! ### The table -/

/-- Every primitive leaves a machine in range. None but 85 rejects a number, as long as the raster engine
counts right, and 85 rejects the count of a saturated semaphore only. -/
theorem all_conclude (hslack : 2 ≤ slack) : ∀ p ∈ all, ∀ n, Concludes
    (fun k m => m.devices.Counts → p.number = 85 ∧ m.Overruns k) slack (p.action n) := by
  simp only [all, List.forall_mem_cons, List.not_mem_nil, false_imp_iff, implies_true, and_true]
  exact ⟨
    fun _ => integerOp_concludes, fun _ => integerOp_concludes, fun _ => integerComparison_concludes,
    fun _ => integerComparison_concludes, fun _ => integerComparison_concludes,
    fun _ => integerComparison_concludes, fun _ => integerComparison_concludes,
    fun _ => integerComparison_concludes, fun _ => integerOp_concludes, fun _ => integerOp_concludes,
    fun _ => integerOp_concludes, fun _ => integerOp_concludes, fun _ => integerOp_concludes,
    fun _ => bitOp_concludes, fun _ => bitOp_concludes, fun _ => bitOp_concludes,
    fun _ => bitShift_concludes, fun _ => point_concludes, fun _ => asFloat_concludes,
    fun _ => floatOp_concludes, fun _ => floatOp_concludes, fun _ => floatComparison_concludes,
    fun _ => floatComparison_concludes, fun _ => floatComparison_concludes,
    fun _ => floatComparison_concludes, fun _ => floatComparison_concludes,
    fun _ => floatComparison_concludes, fun _ => floatOp_concludes, fun _ => floatOp_concludes,
    fun _ => truncated_concludes, fun _ => logarithm_concludes, fun _ => readElement_concludes,
    fun _ => writeElement_concludes, fun _ => size_concludes, fun _ => readElement_concludes,
    fun _ => writeElement_concludes, fun _ => readElement_concludes, fun _ => writeElement_concludes,
    fun _ => basicNew_concludes, fun _ => basicNewSized_concludes, fun _ => arrayBecome_concludes,
    fun _ => readElement_concludes, fun _ => writeElement_concludes, fun _ => identityHash_concludes,
    fun _ => someInstance_concludes, fun _ => nextInstance_concludes, fun _ => newMethod_concludes,
    fun _ => blockCopy_concludes hslack, fun _ => blockValue_concludes, fun _ => perform_concludes,
    fun _ => performWithArguments_concludes, fun _ => signal_concludes fun _ _ h _ => ⟨trivial, h⟩, fun _ => wait_concludes,
    fun _ => resume_concludes, fun _ => suspend_concludes, fun _ => flushCache_concludes,
    fun _ => mousePoint_concludes, fun _ => copyBits_concludes fun _ _ h => (absurd · h), fun _ => performInSuperclass_concludes,
    fun _ => beCursor_concludes, fun _ => beDisplay_concludes, fun _ => replaceElements_concludes,
    fun _ => screenSize_concludes, fun _ => mouseButtons_concludes, fun _ => keyboardNext_concludes,
    fun _ => keyboardPeek_concludes, fun _ => identical_concludes, fun _ => classOf_concludes,
    fun _ => bytesLeft_concludes, fun _ => quit_concludes, fun _ => flushMethod_concludes,
    fun _ => flushSelector_concludes, fun _ => imageName_concludes, fun _ => reverseDisplay_concludes,
    fun _ => lowSpaceSemaphore_concludes, fun _ => lowSpaceThreshold_concludes,
    fun _ => arrayBecome_concludes, fun _ => specialObjectsArray_concludes,
    fun _ => fullCollection_concludes, fun _ => incrementalCollection_concludes,
    fun _ => interruptSemaphore_concludes, fun _ => millisecondClock_concludes,
    fun _ => signalAtMilliseconds_concludes, fun _ => secondsClock_concludes,
    fun _ => someObject_concludes, fun _ => nextObject_concludes, fun _ => vmPath_concludes,
    fun _ => clone_concludes, fun _ => systemAttribute_concludes, fun _ => fileAtEnd_concludes,
    fun _ => fileClose_concludes, fun _ => filePosition_concludes, fun _ => fileOpen_concludes,
    fun _ => fileRead_concludes, fun _ => fileSetPosition_concludes, fun _ => fileDelete_concludes,
    fun _ => fileSize_concludes, fun _ => fileWrite_concludes, fun _ => fileRename_concludes,
    fun _ => createDirectory_concludes, fun _ => pathDelimiter_concludes,
    fun _ => lookupEntry_concludes, fun _ => relinquish_concludes⟩

end Primitive

end Smalltalk
