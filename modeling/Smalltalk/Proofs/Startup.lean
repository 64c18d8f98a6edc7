import Smalltalk.Boot
import Smalltalk.Proofs.Loading
import Smalltalk.Proofs.Overflow

/-!
# Machines in range from the start

The integers of an image are tagged words, and a record has less than `2^30` of them. So the objects that
are loaded are in range, and so is the machine that is booted from them. From then on a run stays in range,
and panics at a number that is not immediate only where it signals a saturated semaphore.
-/

namespace Smalltalk

open Outcome

namespace Image

variable {records : List Record} {loaded : Loaded}

theorem Shaped.size_le {record : Record} {p : Prop} {o : Object} (h : Shaped record p o) :
    o.pointers.size ≤ record.words.length := by
  cases hformat : o.format with
  | words | bytes =>
    simp only [Shaped, hformat] at h
    simp [h.1]
  | method =>
    simp only [Shaped, hformat] at h
    exact h.2.1
  | _ =>
    simp only [Shaped, hformat] at h
    exact h.1.le

/-- The objects of short records are in range. -/
theorem Sound.ranged (h : Sound records loaded) (hshort : ∀ record ∈ records, record.words.length ≤ maxFields) :
    loaded.memory.Ranged := by
  intro v o ho
  obtain ⟨i, hi⟩ := Array.mem_iff_getElem?.1 ((h.tabled.listed v).2 (Memory.isLive_of_get? ho))
  have hlt : i < records.length := h.size ▸ (Array.getElem?_eq_some_iff.1 hi).1
  obtain ⟨w, o', hw, ho', hfaithful⟩ := h.objects i records[i] (List.getElem?_eq_getElem hlt)
  obtain rfl : v = w := Option.some.inj (hi.symm.trans hw)
  obtain rfl : o = o' := Option.some.inj (ho.symm.trans ho')
  refine ⟨.of_isLive hfaithful.cls, ?_, fun x hx => ?_⟩
  · exact hfaithful.shaped.size_le.trans (hshort _ (List.getElem_mem hlt))
  · rcases hfaithful.pointers x hx with ⟨n, rfl, hn⟩ | hlive
    · exact Value.ranged_small hn
    · exact .of_isLive hlive

/-- So are the objects that are found through the special objects array, and the array itself. -/
theorem Sound.ranged_create (h : Sound records loaded) (hmemory : loaded.memory.Ranged)
    (settings : MachineSettings) {devices : Device.Devices} (hdevices : devices.Ranged) :
    (Machine.create loaded.memory loaded.specials settings devices).Ranged 0 := by
  obtain ⟨hnil, hfalse, htrue⟩ := h.specials
  have hrange : loaded.specials.nil.Ranged := hmemory.cell hnil
  obtain ⟨i, record, -, -, harray⟩ := h.array
  have harray := (h.tabled.listed _).1 (Array.mem_of_getElem? harray)
  refine ⟨hmemory, ⟨hrange, hrange, hrange, hrange, ?_, ?_, ?_⟩, .of_isLive harray, hrange,
    hmemory.cell hfalse, hmemory.cell htrue, fun v hv => absurd hv List.not_mem_nil, hdevices⟩
  all_goals
    simp only [Machine.create]
    omega

/-- A machine that has just been made for a loaded image is in range. -/
theorem ranged_of_load {bytes : List UInt8} {table : TableSettings} (h : load bytes table = .ok loaded)
    (settings : MachineSettings) {devices : Device.Devices} (hdevices : devices.Ranged) :
    (Machine.create loaded.memory loaded.specials settings devices).Ranged 0 := by
  obtain ⟨⟨header, records⟩, hstream, h⟩ := Checked.bind_ok.1 h
  rw [Checked.mapError_ok] at hstream
  obtain ⟨-, hsound⟩ := sound_of_install hstream h
  refine hsound.ranged_create (hsound.ranged fun record hr => ?_) settings hdevices
  obtain ⟨_, -, hread⟩ := Checked.bind_ok.1 hstream
  obtain ⟨_, -, hread⟩ := Checked.bind_ok.1 hread
  obtain ⟨records', hrecords, hread⟩ := Checked.bind_ok.1 hread
  cases Checked.pure_ok.1 hread
  exact (length_lt_of_readRecords hrecords hr).le

end Image

/-- Taking up the suspended context of the active process leaves a machine in range. -/
theorem Action.ends_loadInitialContext : Ends (faulted Miscount) (Machine.Ranged 0)
    loadInitialContext (keeping (Machine.Ranged 0) fun _ => True) := by
  refine .next keeps_activeProcess fun process _ => .next keeps_fetch fun context hcontext => ?_
  refine .next (ends_takeUp hcontext.2) fun _ _ => .next ends_loadRegisters fun _ _ => ?_
  exact keeps_modify fun _ => ⟨rfl, rfl, rfl, fun _ hv => hv, rfl⟩

/-- Devices that nothing has happened to. -/
theorem Device.Devices.ranged_idle (script : Script) (files : FileSystem) : (idle script files).Ranged :=
  have hzero : Value.InRange 0 := by decide
  have hsize : Value.InRange 640 ∧ Value.InRange 480 := by decide
  ⟨⟨hzero, hzero⟩, hzero, fun _ hkey => absurd hkey List.not_mem_nil, hsize⟩

/-- A booted machine is in range. -/
theorem Machine.ranged_boot {path : String} {file : Option (List UInt8)} {table : TableSettings} {m : Machine}
    (h : boot path file table = .ok m) : m.Ranged 0 := by
  cases file with
  | none => exact absurd h Checked.throw_ne_ok
  | some bytes =>
    obtain ⟨loaded, hload, h⟩ := Checked.bind_ok.1 h
    dsimp only at h
    split at h
    · rename_i hrun
      obtain rfl := Checked.pure_ok.1 h
      refine (Action.ends_loadInitialContext.ok ?_ hrun).1
      exact (Image.ranged_of_load hload {} (Device.Devices.ranged_idle _ _)).alike rfl rfl rfl (fun _ hv => hv) rfl
    · exact absurd h Checked.throw_ne_ok

/-- A run through short methods stays in range. If it ends by a fault, no number was rejected but the count
of a saturated semaphore. -/
theorem Machine.Ranged.steps {m : Machine} {count : Nat} (h : m.Ranged 0)
    (hshort : ∀ k < count, ∀ m₁, Action.steps k m = .ok () m₁ → m₁.Short) :
    match Action.steps count m with
    | .ok _ m' => m'.Ranged 0
    | .error e m' => faulted Miscount e m' := by
  induction count generalizing m with
  | zero => exact h
  | succ count ih =>
    have hstart := And.intro h (hshort 0 (Nat.succ_pos _) m rfl)
    rw [Action.steps]
    cases hstep : Action.step m with
    | ok _ m₁ =>
      have hsteps : ∀ k, Action.steps (k + 1) m = Action.steps k m₁ := fun k => by
        rw [Action.steps, bind_of_ok hstep]
      rw [bind_of_ok hstep]
      exact ih (Action.step_confines.ok hstart hstep) fun k hk m₂ hm₂ =>
        hshort (k + 1) (by omega) m₂ ((hsteps k).trans hm₂)
    | error e m₁ =>
      rw [bind_of_error hstep]
      exact Action.step_confines.error hstart hstep

/-- So does a run from the start. -/
theorem Machine.ranged_steps_of_boot {path : String} {file : Option (List UInt8)} {table : TableSettings}
    {m : Machine} (h : boot path file table = .ok m) {count : Nat}
    (hshort : ∀ k < count, ∀ m₁, Action.steps k m = .ok () m₁ → m₁.Short) :
    match Action.steps count m with
    | .ok _ m' => m'.Ranged 0
    | .error e m' => faulted Miscount e m' := (ranged_boot h).steps hshort

end Smalltalk
