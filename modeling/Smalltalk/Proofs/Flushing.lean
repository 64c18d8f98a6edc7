import Smalltalk.Proofs.Caching
import Smalltalk.Proofs.Dispatch
import Smalltalk.Proofs.Movement

/-!
# Accesses after a flush

The bytecodes for `at:` and `at:put:` ask two memories: the at-cache, which knows arrays, and, when
that one does not help, the method cache, which knows selectors and classes. A method that has been
replaced is out of use only if both have forgotten it. Emptying the caches makes both forget.
Flushing a selector or a method reaches the method cache alone, and an array that the at-cache knows
is still accessed without a send.
-/

namespace Smalltalk

open Outcome

variable {m m' m₁ m₂ : Machine} {access : Access} {selector cls array old v x : Value} {n i : Nat}

/-! ### Fetching instructions -/

/-- The byte of the active method at the program counter. -/
def Machine.nextByte? (m : Machine) : Option UInt8 :=
  ((m.memory.get? m.registers.method).bind Object.bytes?).bind (·[m.registers.pc]?)

/-- The machine after an instruction of one byte was fetched. -/
def Machine.fetched (m : Machine) : Machine :=
  { m with
    registers := { m.registers with pc := m.registers.pc + 1 }
    counters := { m.counters with bytecodes := m.counters.bytecodes + 1 } }

/-- The machine after a send was counted. -/
def Machine.sent (m : Machine) : Machine :=
  { m with counters := { m.counters with sends := m.counters.sends + 1 } }

namespace Action

theorem nextByte_of_some {byte : UInt8} (h : m.nextByte? = some byte) :
    nextByte m = .ok byte m.skipped := by
  obtain ⟨bytes, hbytes, -⟩ := Option.bind_eq_some_iff.1 h
  obtain ⟨o, ho, -⟩ := Option.bind_eq_some_iff.1 hbytes
  have hpeek : peekByte m = .ok (some byte) m := congrArg (EStateM.Result.ok · m) h
  unfold nextByte
  rw [bind_of_ok (registers_ok.2 ⟨rfl, rfl⟩), bind_of_ok (object_ok.2 ⟨ho, rfl⟩), bind_of_ok hpeek]
  rfl

/-- An instruction without operands is fetched by its byte. -/
theorem fetchInstruction_eq {byte : UInt8} {instruction : Instruction} (h : m.nextByte? = some byte)
    (hcount : Instruction.operandCount byte = 0)
    (hdecode : Instruction.decode? byte 0 0 = some instruction) :
    fetchInstruction m = .ok instruction m.fetched := by
  have hcounted : countBytecode m.skipped = .ok () m.fetched := rfl
  unfold fetchInstruction
  rw [bind_of_ok (nextByte_of_some h), bind_of_ok hcounted]
  simp only [hcount, Nat.reduceLeDiff, if_false, pure_bind, hdecode]
  rfl

end Action

/-- The caches are the same. -/
def Machine.Recalls (m m' : Machine) : Prop :=
  m'.methodCache = m.methodCache ∧ m'.atCache = m.atCache

instance : Machine.Fieldwork Machine.Recalls where
  refl _ := ⟨rfl, rfl⟩
  trans _ _ _ h h' := ⟨h'.1.trans h.1, h'.2.trans h.2⟩
  setCell := ⟨rfl, rfl⟩
  withRegisters := ⟨rfl, rfl⟩
  counters := ⟨rfl, rfl⟩
  interrupts := ⟨rfl, rfl⟩
  reclaimable := ⟨rfl, rfl⟩
  pool := ⟨rfl, rfl⟩

/-! ### Looking at operands -/

theorem Action.isInstanceOf_eq : isInstanceOf v i m =
    .ok ((m.memory.get? v).any fun o => o.cls == m.specials.get m.memory i) m := by
  unfold isInstanceOf
  rw [bind_of_ok (object?_ok.2 ⟨rfl, rfl⟩)]
  cases m.memory.get? v with
  | none => rfl
  | some o => rfl

theorem Action.stackValues_succ {xs : List Value} (h : stackValues (n + 1) m = .ok xs m') :
    ∃ x rest, xs = x :: rest ∧ stackValue n m = .ok x m ∧ stackValues n m = .ok rest m := by
  obtain ⟨x, m₁, hx, h⟩ := bind_ok.1 h
  obtain ⟨rest, m₂, hrest, h⟩ := bind_ok.1 h
  obtain ⟨-, -, rfl⟩ := stackValue_ok.1 hx
  obtain ⟨rfl, -⟩ := stackValues_ok hrest
  obtain ⟨rfl, -⟩ := pure_ok.1 h
  exact ⟨x, rest, rfl, hx, hrest⟩

namespace Attempt

variable {α β : Type} {y : Attempt α} {f : α → Attempt β}

/-- The attempt is declined or answered on the spot, without a change or a fault. -/
def Looks (m : Machine) (y : Attempt α) : Prop := (∃ a, y m = .ok a m) ∨ y m = .error .declined m

theorem Looks.pure {a : α} : Looks m (pure a) := .inl ⟨a, rfl⟩

theorem Looks.bind (hy : Looks m y) (hf : ∀ a, y m = .ok a m → Looks m (f a)) : Looks m (y >>= f) := by
  rcases hy with ⟨a, ha⟩ | hdeclined
  · rw [Looks, bind_of_ok ha]
    exact hf a ha
  · exact .inr (bind_of_error hdeclined)

theorem Looks.bind_congr {g : α → Attempt β} (hy : Looks m y) (h : ∀ a, f a m = g a m) :
    (y >>= f) m = (y >>= g) m := by
  rcases hy with ⟨a, ha⟩ | hdeclined
  · rw [bind_of_ok ha, bind_of_ok ha, h]
  · rw [bind_of_error hdeclined, bind_of_error hdeclined]

/-- It does not matter in which order one looks. -/
theorem Looks.swap {γ : Type} {z : Attempt γ} {g : α → γ → Attempt β} (hy : Looks m y) (hz : Looks m z) :
    (y >>= fun a => z >>= g a) m = (z >>= fun c => y >>= fun a => g a c) m := by
  rcases hy with ⟨a, ha⟩ | hy
  · rw [bind_of_ok ha]
    exact hz.bind_congr fun c => by rw [bind_of_ok ha]
  · rw [bind_of_error hy]
    rcases hz with ⟨c, hc⟩ | hz
    · rw [bind_of_ok hc, bind_of_error hy]
    · rw [bind_of_error hz]

theorem Looks.lift {action : Action α} {a : α} (h : action m = .ok a m) : Looks m (liftM action) :=
  .inl ⟨a, lift_ok.2 h⟩

theorem Looks.require {p : Prop} [Decidable p] : Looks m (require p) := by
  unfold Attempt.require
  split
  · exact .pure
  · exact .inr rfl

theorem Looks.ofOption {found : Option α} : Looks m (ofOption found) := by
  cases found with
  | none => exact .inr rfl
  | some a => exact .pure

theorem require_ok {p : Prop} [Decidable p] {u : Unit} (h : require p m = .ok u m') : p := by
  unfold require at h
  split at h
  · assumption
  · exact (throw_ok.1 h).elim

theorem looks_stackPositive32 {depth : Nat} (h : Action.stackValue depth m = .ok x m) :
    Looks m (stackPositive32 depth) := by
  refine .bind (.lift h) fun v _ => ?_
  cases v with
  | small k => exact .bind .require fun _ _ => .pure
  | ref index generation =>
    refine .bind (.lift Action.isInstanceOf_eq) fun large hlarge => .bind .require fun _ hrequire => ?_
    obtain ⟨rfl, -⟩ := EStateM.Result.ok.inj (Action.isInstanceOf_eq.symm.trans (lift_ok.1 hlarge))
    obtain ⟨o, ho, -⟩ := (Option.any_eq_true _ _).1 (require_ok hrequire)
    refine .bind (.lift (Action.object_ok.2 ⟨ho, rfl⟩)) fun _ _ => ?_
    exact .bind .ofOption fun _ _ => .bind .require fun _ _ => .pure

end Attempt

/-! ### Accesses by bytecode -/

namespace Access

/-- The number of arguments of the selector. -/
def argCount : Access → Nat
  | .at => 1
  | .atPut => 2

/-- The position of the selector among those that are not arithmetic. -/
def index : Access → Nat
  | .at => 0
  | .atPut => 1

/-- The bytecode that makes the access. -/
def bytecode : Access → UInt8
  | .at => 192
  | .atPut => 193

/-- What the bytecode tries before it sends the selector. -/
def quick : Access → Attempt Value
  | .at => Attempt.indexedAt true Primitive.characterMode
  | .atPut => Attempt.indexedAtPut true Primitive.characterMode

/-- The access by what is remembered about an array. -/
def recalled (array : Value) (entry : AtEntry) : Access → Attempt Value
  | .at => do
    let index ← Attempt.stackPositive32 0
    Attempt.require (1 ≤ index ∧ index ≤ entry.size)
    Attempt.elementAt array (index - 1) entry Primitive.characterMode
  | .atPut => do
    let index ← Attempt.stackPositive32 1
    let x ← Attempt.stackValue 0
    Attempt.require (1 ≤ index ∧ index ≤ entry.size)
    Attempt.elementPut array (index - 1) x entry Primitive.characterMode
    return x

end Access

namespace Attempt

variable {o : Object} {arguments : List Value}

theorem stackObject_eq {depth : Nat} (h : Action.stackValue depth m = .ok array m)
    (ho : m.memory.get? array = some o) : stackObject depth m = .ok array m := by
  unfold stackObject
  rw [bind_of_ok (show stackValue depth m = .ok array m from lift_ok.2 h)]
  simp only [require, Memory.isReference_of_isLive (Memory.isLive_of_get? ho), if_true, pure_bind]
  rfl

theorem cachedEntry_eq (ho : m.memory.get? array = some o) :
    cachedEntry access array m = ofOption (m.atCache.find access array o.hash) m := by
  unfold cachedEntry
  rw [bind_of_ok (lift_ok.2 (Action.object_ok.2 ⟨ho, rfl⟩))]
  rfl

theorem looks_cachedEntry (ho : m.memory.get? array = some o) : Looks m (cachedEntry access array) := by
  rw [Looks, cachedEntry_eq ho]
  exact Looks.ofOption

theorem indexedAt_eq (hstack : Action.stackValues 2 m = .ok (array :: arguments) m)
    (ho : m.memory.get? array = some o) :
    indexedAt true Primitive.characterMode m = (cachedEntry .at array >>= (Access.recalled array · .at)) m := by
  obtain ⟨_, _, e, harray, harguments⟩ := Action.stackValues_succ hstack
  obtain ⟨rfl, rfl⟩ := List.cons.inj e
  obtain ⟨index, _, -, hindex, -⟩ := Action.stackValues_succ harguments
  have hindex := looks_stackPositive32 hindex
  unfold indexedAt
  rw [bind_of_ok (stackObject_eq harray ho)]
  refine (hindex.bind_congr fun k => ?_).trans (hindex.swap (looks_cachedEntry ho))
  rw [bind_of_ok (lift_ok.2 Action.isInstanceOf_eq)]
  simp only [Bool.not_true, Bool.false_and, Bool.false_eq_true, if_false, if_true]

theorem indexedAtPut_eq (hstack : Action.stackValues 3 m = .ok (array :: arguments) m)
    (ho : m.memory.get? array = some o) : indexedAtPut true Primitive.characterMode m =
      (cachedEntry .atPut array >>= (Access.recalled array · .atPut)) m := by
  obtain ⟨_, _, e, harray, harguments⟩ := Action.stackValues_succ hstack
  obtain ⟨rfl, rfl⟩ := List.cons.inj e
  obtain ⟨index, _, -, hindex, hx⟩ := Action.stackValues_succ harguments
  obtain ⟨x, _, -, hx, -⟩ := Action.stackValues_succ hx
  have hindex := looks_stackPositive32 hindex
  have hx : Looks m (stackValue 0) := .lift hx
  have hentry : Looks m (cachedEntry .atPut array) := looks_cachedEntry ho
  unfold indexedAtPut
  rw [bind_of_ok (stackObject_eq harray ho)]
  refine (hindex.bind_congr fun k => ?_).trans (hindex.swap hentry)
  simp only [if_true]
  exact hx.swap hentry

/-- The bytecode goes by what is remembered about the array. -/
theorem quick_eq (hstack : Action.stackValues (access.argCount + 1) m = .ok (array :: arguments) m)
    (ho : m.memory.get? array = some o) :
    access.quick m = (cachedEntry access array >>= (Access.recalled array · access)) m := by
  cases access with
  | «at» => exact indexedAt_eq hstack ho
  | atPut => exact indexedAtPut_eq hstack ho

end Attempt

/-! ### Answering a send -/

namespace Action

/-- Answers a send by the method that was found for it: its primitive takes its place if it has one
that is willing, and otherwise it is made active. A perform hands the send on at most `limit` times. -/
def answerSend (limit : Nat) (receiver : Value) (found : CacheEntry) (argCount : Nat) : Action Unit := do
  if 0 < found.primitive then
    modify fun m => { m with lastPrimitiveSend := some (found.selector, found.cls) }
  let trial ← if 0 < found.primitive then tryPrimitive found.primitive argCount else pure .unhandled
  match trial with
  | .handled => return
  | .resend selector argCount lookupClass => sendWithin limit selector argCount lookupClass
  | .unhandled => activateMethod receiver found.method argCount

/-- A search that finds a method has looked at the class. -/
theorem isLive_of_lookupEntry {memory : Memory} {nil : Value} {new : CacheEntry}
    (h : lookupEntry memory cls selector nil = .ok (some new)) : memory.isLive cls = true := by
  obtain ⟨found, hfound, h⟩ := Checked.bind_ok.1 h
  cases found with
  | none => exact absurd (Checked.pure_ok.1 h) (by simp)
  | some method =>
    simp only [findMethod, findMethodWithin] at hfound
    split at hfound
    · exact absurd hfound (by simp)
    · obtain ⟨dictionary, hdictionary, -⟩ := Checked.bind_ok.1 hfound
      exact Memory.isLive_of_field hdictionary

/-- A cache that holds nothing but the right answer for a selector and a class answers it, or lets
the search do so. -/
theorem lookup_eq {new : CacheEntry}
    (hfound : lookupEntry m.memory cls selector m.specials.nil = .ok (some new))
    (hcache : m.methodCache.All fun e => e.selector = selector → e.cls = cls → e = new) :
    ∃ cache, lookup selector cls m = .ok (some new) { m with methodCache := cache } := by
  obtain ⟨o, ho⟩ := Memory.isLive_iff.1 (isLive_of_lookupEntry hfound)
  unfold lookup cachedLookup
  simp only [ho, MethodCache.probe]
  cases hfind : m.methodCache.find selector (Dictionary.selectorHash m.memory selector) cls o.hash with
  | some e =>
    obtain ⟨hselector, hcls, place, hplace⟩ := MethodCache.find_some hfind
    obtain rfl := hcache place e hplace hselector hcls
    exact ⟨_, rfl⟩
  | none =>
    simp only [hfound]
    exact ⟨_, rfl⟩

theorem sendToClass_eq {selector cls : Value} : sendToClass selector n cls m =
    sendWithin (m.resendLimit - 1 + 1) selector n cls m := by
  have hpos : 0 < m.resendLimit := by
    rw [Machine.resendLimit, Nat.one_shiftLeft]
    exact Nat.two_pow_pos _
  rw [Nat.sub_add_cancel hpos]
  exact bind_of_ok (get_ok.2 ⟨rfl, rfl⟩)

/-- A send answers by the method that its lookup finds. -/
theorem sendWithin_eq {limit : Nat} {receiver : Value} {new : CacheEntry} {cache : MethodCache}
    (hreceiver : stackValue n m = .ok receiver m)
    (hlookup : lookup selector cls m.sent = .ok (some new) { m.sent with methodCache := cache })
    (hnew : new.selector = selector ∧ new.cls = cls) :
    sendWithin (limit + 1) selector n cls m =
      answerSend limit receiver new n { m.sent with methodCache := cache } := by
  obtain ⟨rfl, rfl⟩ := hnew
  have hsent : stackValue n m.sent = .ok receiver m.sent := by
    obtain ⟨hdepth, hcell, -⟩ := stackValue_ok.1 hreceiver
    exact stackValue_ok.2 ⟨hdepth, hcell, rfl⟩
  have hfind : findSelector new.selector n new.cls m.sent =
      .ok new { m.sent with methodCache := cache } := by
    unfold findSelector
    rw [bind_of_ok hlookup]
    rfl
  have hcount : modifyCounters (fun c => { c with sends := c.sends + 1 }) m = .ok () m.sent := rfl
  unfold sendWithin
  rw [bind_of_ok hcount, bind_of_ok hsent, bind_of_ok (registers_ok.2 ⟨rfl, rfl⟩), bind_of_ok hfind]
  generalize hM : ({ m.sent with methodCache := cache } : Machine) = M
  have hsp : m.sent.registers.sp = M.registers.sp := by rw [← hM]
  unfold answerSend
  by_cases hprimitive : 0 < new.primitive
  · have hmodify : (modify fun m => { m with lastPrimitiveSend := some (new.selector, new.cls) } :
        Action Unit) M = .ok () { M with lastPrimitiveSend := some (new.selector, new.cls) } := rfl
    simp only [hprimitive, if_true]
    rw [bind_of_ok hmodify, bind_of_ok hmodify, bind_of_ok (registers_ok.2 ⟨rfl, rfl⟩), hsp]
    -- the stack is as high as before, so the number of arguments is the same
    generalize hk : n + M.registers.sp - M.registers.sp = k
    obtain rfl : k = n := by omega
    rfl
  · simp only [hprimitive, if_false]
    rw [bind_of_ok (registers_ok.2 ⟨rfl, rfl⟩), hsp]
    generalize hk : n + M.registers.sp - M.registers.sp = k
    obtain rfl : k = n := by omega
    rfl

end Action

/-! ### Maintenance -/

/-- A primitive that makes the caches forget. -/
inductive Flush where
  /-- Everything that they remember. -/
  | all
  /-- The lookups of the selector on the stack. -/
  | selector
  /-- The lookups that found the method on the stack. -/
  | method
  deriving DecidableEq

namespace Flush

/-- The number of the primitive. -/
def number : Flush → Nat
  | .all => 89
  | .selector => 119
  | .method => 116

/-- Whether the value on the stack makes the primitive forget a lookup of `key` that found `old`. -/
def Covers (key old v : Value) : Flush → Prop
  | .all => True
  | .selector => v = key
  | .method => v = old

/-- The machine after the primitive. -/
def done (v : Value) (m : Machine) : Flush → Machine
  | .all => m.flushCaches
  | .selector => { m with methodCache := m.methodCache.flushSelector v }
  | .method => { m with methodCache := m.methodCache.flushMethod v }

/-- Running the primitive makes the caches forget and does nothing else. -/
theorem tryPrimitive_eq (flush : Flush) (h : Action.top m = .ok v m) :
    Action.tryPrimitive flush.number n m = .ok .handled (flush.done v m) := by
  have htop : (liftM Action.top : Attempt Value) m = .ok v m := Attempt.lift_ok.2 h
  have hrun : ∃ p ∈ Primitive.all, p.number = flush.number ∧ p.action n m = .ok .done (flush.done v m) := by
    cases flush with
    | all => exact ⟨⟨89, "flushCache", Primitive.flushCache⟩, by simp [Primitive.all], rfl, rfl⟩
    | selector =>
      exact ⟨⟨119, "flushCacheBySelector", Primitive.flushSelector⟩, by simp [Primitive.all], rfl,
        bind_of_ok htop⟩
    | method =>
      exact ⟨⟨116, "flushCacheByMethod", Primitive.flushMethod⟩, by simp [Primitive.all], rfl,
        bind_of_ok htop⟩
  obtain ⟨p, hp, hnumber, hrun⟩ := hrun
  have hquick : ¬ (256 ≤ flush.number ∧ flush.number < 520) := by cases flush <;> decide
  have hended : (p.action n).run? m = .ok (some .done) (flush.done v m) := by rw [Attempt.run?, hrun]
  unfold Action.tryPrimitive
  rw [if_neg hquick, ← hnumber, Primitive.find?_of_mem hp]
  exact bind_of_ok hended

/-- Only the answer that a search gives now is left of what the cache remembered for a selector and
a class. -/
theorem all_done {flush : Flush} {key : Value} {new : CacheEntry} (hcovers : flush.Covers key old v)
    (hcache : m.methodCache.All fun e => e.selector = key → e.cls = cls → e.method = old ∨ e = new) :
    (flush.done v m).methodCache.All fun e => e.selector = key → e.cls = cls → e = new := by
  cases flush with
  | all => exact MethodCache.all_clear
  | selector =>
    obtain rfl := hcovers
    intro place e he hselector
    exact absurd hselector (by simpa using (MethodCache.entry_forget he).2)
  | method =>
    obtain rfl := hcovers
    intro place e he hselector hcls
    obtain ⟨hold, hmethod⟩ := MethodCache.entry_forget he
    exact (hcache place e hold hselector hcls).resolve_left (by simpa using hmethod)

theorem find_empty {hash : UInt16} : AtCache.empty.find access array hash = none := by
  have hplace (j : Nat) : ((Array.replicate AtCache.capacity (none : Option AtEntry))[j]?).join = none := by
    rw [Array.getElem?_replicate]
    split <;> rfl
  cases access with
  | «at» => simp only [AtCache.find, AtCache.empty, hplace, Option.filter_none]
  | atPut => simp only [AtCache.find, AtCache.empty, hplace, Option.filter_none]

end Flush

/-! ### The next access -/

/-- The machine comes to the bytecode of an access, with receiver and arguments on the stack. -/
structure Machine.Accessing (m : Machine) (access : Access) (selector array : Value) (o : Object) :
    Prop where
  bytecode : m.nextByte? = some access.bytecode
  selector : m.memory.cell (m.specials.get m.memory Special.specialSelectors)
    (Action.selectorIndex access) = some selector
  argCount : m.memory.cell (m.specials.get m.memory Special.specialSelectors)
    (Action.selectorIndex access + 1) = some (.small access.argCount)
  stack : ∃ arguments, Action.stackValues (access.argCount + 1) m = .ok (array :: arguments) m
  object : m.memory.get? array = some o

namespace Action

variable {o : Object}

theorem stackValue_fetched (h : stackValue n m = .ok x m) :
    stackValue n m.fetched = .ok x m.fetched := by
  obtain ⟨hdepth, hcell, -⟩ := stackValue_ok.1 h
  exact stackValue_ok.2 ⟨hdepth, hcell, rfl⟩

theorem stackValues_fetched {xs : List Value} (h : stackValues n m = .ok xs m) :
    stackValues n m.fetched = .ok xs m.fetched := by
  induction n generalizing xs with
  | zero =>
    obtain ⟨rfl, -⟩ := pure_ok.1 h
    rfl
  | succ n ih =>
    obtain ⟨x, rest, rfl, hx, hrest⟩ := stackValues_succ h
    exact (bind_of_ok (stackValue_fetched hx)).trans (bind_of_ok (ih hrest))

theorem quickSpecial_eq (access : Access) :
    quickSpecial access.index = quickly (access.argCount + 1) access.quick := by
  cases access <;> rfl

end Action

namespace Machine.Accessing

open Smalltalk.Action

variable {o : Object}

theorem step_eq (h : m.Accessing access selector array o) :
    step m = execute (.special access.index) m.fetched := by
  have hcount : Instruction.operandCount access.bytecode = 0 := by cases access <;> rfl
  have hdecode : Instruction.decode? access.bytecode 0 0 = some (.special access.index) := by
    cases access <;> rfl
  rw [Action.step_eq, bind_of_ok (fetchInstruction_eq h.bytecode hcount hdecode)]

theorem quick_eq (h : m.Accessing access selector array o) : access.quick m.fetched =
    (Attempt.cachedEntry access array >>= (Access.recalled array · access)) m.fetched := by
  obtain ⟨arguments, hstack⟩ := h.stack
  exact Attempt.quick_eq (stackValues_fetched hstack) h.object

theorem sendSpecial_eq (h : m.Accessing access selector array o) :
    sendSpecial (access.index + 16) m.fetched =
      sendToClass selector access.argCount o.cls m.fetched := by
  obtain ⟨arguments, hstack⟩ := h.stack
  obtain ⟨_, _, e, harray, -⟩ := stackValues_succ (stackValues_fetched hstack)
  obtain ⟨rfl, -⟩ := List.cons.inj e
  have hindex : (access.index + 16) * 2 = selectorIndex access := by cases access <;> rfl
  have hselector : specialSelector (selectorIndex access) m.fetched = .ok selector m.fetched :=
    fetch_ok.2 ⟨h.selector, rfl⟩
  have hargCount : fetchInt (m.specials.get m.memory Special.specialSelectors)
      (selectorIndex access + 1) m.fetched = .ok access.argCount m.fetched :=
    fetchInt_ok.2 ⟨h.argCount, rfl⟩
  have hspecial : special Special.specialSelectors m.fetched =
      .ok (m.specials.get m.memory Special.specialSelectors) m.fetched := rfl
  have hcls : classOf array m.fetched = .ok o.cls m.fetched :=
    classOf_ok.2 ⟨.inr ⟨o, h.object, rfl⟩, rfl⟩
  unfold sendSpecial
  rw [hindex, bind_of_ok hselector, bind_of_ok hspecial, bind_of_ok hargCount, if_neg (by omega),
    Int.toNat_natCast]
  exact (bind_of_ok harray).trans (bind_of_ok hcls)

/-- An array that is remembered is accessed without a send. -/
theorem step_recalled (h : m.Accessing access selector array o) {entry : AtEntry}
    (hentry : m.atCache.find access array o.hash = some entry)
    (hx : access.recalled array entry m.fetched = .ok x m') :
    step m = popThenPush (access.argCount + 1) x m' := by
  have hcached : Attempt.cachedEntry access array m.fetched = .ok entry m.fetched := by
    have hfind : m.fetched.atCache.find access array o.hash = _ := hentry
    rw [Attempt.cachedEntry_eq (m := m.fetched) h.object, hfind]
    rfl
  have hquick : access.quick m.fetched = .ok x m' := by rw [h.quick_eq, bind_of_ok hcached, hx]
  have hrun : access.quick.run? m.fetched = .ok (some x) m' := by rw [Attempt.run?, hquick]
  have hspecial : quickSpecial access.index m.fetched =
      (popThenPush (access.argCount + 1) x >>= fun _ => pure true) m' := by
    rw [quickSpecial_eq]
    exact bind_of_ok hrun
  rw [h.step_eq]
  cases hpop : popThenPush (access.argCount + 1) x m' with
  | ok u m₁ =>
    rw [bind_of_ok hpop] at hspecial
    exact bind_of_ok hspecial
  | error e m₁ =>
    rw [bind_of_error hpop] at hspecial
    exact bind_of_error hspecial

/-- An array that is not remembered is sent the selector. -/
theorem step_forgotten (h : m.Accessing access selector array o)
    (hnone : m.atCache.find access array o.hash = none) :
    step m = sendToClass selector access.argCount o.cls m.fetched := by
  have hcached : Attempt.cachedEntry access array m.fetched = .error .declined m.fetched := by
    have hfind : m.fetched.atCache.find access array o.hash = _ := hnone
    rw [Attempt.cachedEntry_eq (m := m.fetched) h.object, hfind]
    rfl
  have hquick : access.quick m.fetched = .error .declined m.fetched := by
    rw [h.quick_eq, bind_of_error hcached]
  have hrun : access.quick.run? m.fetched = .ok none m.fetched := by rw [Attempt.run?, hquick]
  have hspecial : quickSpecial access.index m.fetched = .ok false m.fetched := by
    rw [quickSpecial_eq]
    exact bind_of_ok hrun
  rw [h.step_eq, ← h.sendSpecial_eq]
  exact bind_of_ok hspecial

end Machine.Accessing

namespace Flush

open Machine

/-- After a flush that reaches both caches, or where the at-cache knows nothing of the array, the
next access by bytecode answers a send by the method that a search finds now. After a flush of a
selector or a method, an array that the at-cache knows is accessed as before. -/
theorem next_access {flush : Flush} {new : CacheEntry} {o : Object} (top : Action.top m = .ok v m)
    (covers : flush.Covers selector old v)
    (cached : m.methodCache.All fun e =>
      e.selector = selector → e.cls = o.cls → e.method = old ∨ e = new)
    (between : Relation.ReflTransGen PlainStep (flush.done v m) m')
    (found : lookupEntry m'.memory o.cls selector m'.specials.nil = .ok (some new))
    (ready : m'.Accessing access selector array o) :
    Action.tryPrimitive flush.number n m = .ok .handled (flush.done v m) ∧
    (flush = .all ∨ m.atCache.find access array o.hash = none → ∃ cache,
      Action.lookup selector o.cls m'.fetched.sent =
        .ok (some new) { m'.fetched.sent with methodCache := cache } ∧
      Action.step m' = Action.answerSend (m'.resendLimit - 1) array new access.argCount
        { m'.fetched.sent with methodCache := cache }) ∧
    (flush ≠ .all → ∀ entry, m.atCache.find access array o.hash = some entry → ∀ x m₁,
      access.recalled array entry m'.fetched = .ok x m₁ →
      Action.step m' = Action.popThenPush (access.argCount + 1) x m₁) := by
  obtain ⟨hmethods, harrays⟩ : Recalls (flush.done v m) m' := Fieldwork.of_plain between
  refine ⟨tryPrimitive_eq flush top, fun hforgotten => ?_, fun hflush entry hentry x m₁ hx => ?_⟩
  · have hnone : m'.atCache.find access array o.hash = none := by
      rw [harrays]
      cases flush with
      | all => exact find_empty
      | selector => exact hforgotten.resolve_left (by simp)
      | method => exact hforgotten.resolve_left (by simp)
    have hall : m'.fetched.sent.methodCache.All fun e =>
        e.selector = selector → e.cls = o.cls → e = new := by
      change m'.methodCache.All _
      rw [hmethods]
      exact all_done covers cached
    obtain ⟨cache, hlookup⟩ := Action.lookup_eq (m := m'.fetched.sent) found hall
    obtain ⟨arguments, hstack⟩ := ready.stack
    obtain ⟨_, _, e, harray, -⟩ := Action.stackValues_succ (Action.stackValues_fetched hstack)
    obtain ⟨rfl, -⟩ := List.cons.inj e
    obtain ⟨hcls, hselector⟩ := lookupEntry_some found
    refine ⟨cache, hlookup, ?_⟩
    rw [ready.step_forgotten hnone, Action.sendToClass_eq]
    exact Action.sendWithin_eq harray hlookup ⟨hselector, hcls⟩
  · have hrecalled : m'.atCache.find access array o.hash = some entry := by
      rw [harrays]
      cases flush with
      | all => exact absurd rfl hflush
      | selector => exact hentry
      | method => exact hentry
    exact ready.step_recalled hrecalled hx

/-- A class with one method for a selector, an old method that reads elements, and two instances of
the class. The active context has the first one, an index and the selector on its stack. -/
def rackObjects : List Object :=
  let nil : Value := .ref 0 0
  let header args prim : Value := .small (MethodHeader.encode args args 0 false prim).word
  let pointers cls format fields := Object.ofPointers cls format (List.toArray fields)
  [pointers nil .empty [],
    pointers nil .indexable (List.replicate 23 nil ++ [.ref 8 0]),
    pointers nil .fixed [nil, .ref 3 0, .small (InstanceSpec.encode 0 2)],
    pointers nil .fixedIndexable [.small 1, .ref 4 0, .ref 5 0],
    pointers nil .indexable [.ref 7 0], pointers nil .empty [],
    .ofMethod nil #[header 1 60] #[120], .ofMethod nil #[header 1 0] #[16, 124],
    pointers nil .indexable (List.replicate 32 nil ++ [.ref 5 0, .small 1]),
    pointers (.ref 2 0) .indexable [.small 10, .small 20],
    pointers (.ref 2 0) .indexable [.small 30],
    .ofMethod nil #[header 0 0] #[135, 192],
    pointers nil .indexable ([nil, .small 0, .small 0, .ref 11 0, nil, nil, .ref 9 0, .small 1, .ref 5 0] ++
      List.replicate 14 nil)]

/-- What was looked up before the method was replaced. -/
def rackLookups : MethodCache := MethodCache.empty.install ⟨.ref 5 0, .ref 2 0, .ref 6 0, 60⟩ 0 0

/-- The method cache still has the old method. The at-cache has the other instance, in the place that
the first one would take. -/
def rack : Machine :=
  let nil : Value := .ref 0 0
  let m := Machine.create (filled (.empty .standard) rackObjects)
    { array := .ref 1 0, nil, falseObject := nil, trueObject := nil } {} default
  { m with
    registers := { m.registers with
      context := .ref 12 0
      home := .ref 12 0
      method := .ref 11 0
      sp := 8 }
    methodCache := rackLookups
    atCache := AtCache.empty.install .at 0 ⟨.ref 10 0, 1, 0, false⟩ }

/-- The machine after the selector was taken off the stack. -/
def rackPopped (m : Machine) : Machine :=
  m.fetched.withRegisters { m.fetched.registers with sp := m.registers.sp - 1 }

/-- The selector is flushed and dropped, and the next access runs the new method. -/
theorem next_access_rack :
    let flushed := Flush.selector.done (.ref 5 0) rack
    let m' := rackPopped flushed
    let new : CacheEntry := ⟨.ref 5 0, .ref 2 0, .ref 7 0, 0⟩
    ∃ o, Action.top rack = .ok (.ref 5 0) rack ∧
      Flush.selector.Covers (.ref 5 0) (.ref 6 0) (.ref 5 0) ∧
      (rack.methodCache.All fun e =>
        e.selector = .ref 5 0 → e.cls = o.cls → e.method = .ref 6 0 ∨ e = new) ∧
      Relation.ReflTransGen PlainStep flushed m' ∧
      lookupEntry m'.memory o.cls (.ref 5 0) m'.specials.nil = .ok (some new) ∧
      m'.Accessing .at (.ref 5 0) (.ref 9 0) o ∧
      rack.atCache.find .at (.ref 9 0) o.hash = none ∧
      Action.tryPrimitive 119 0 rack = .ok .handled flushed ∧
      ∃ cache, Action.lookup (.ref 5 0) o.cls m'.fetched.sent =
          .ok (some new) { m'.fetched.sent with methodCache := cache } ∧
        Action.step m' = Action.answerSend (m'.resendLimit - 1) (.ref 9 0) new 1
          { m'.fetched.sent with methodCache := cache } := by
  intro flushed m' new
  let o := Object.ofPointers (.ref 2 0) .indexable #[.small 10, .small 20]
  have top : Action.top rack = .ok (.ref 5 0) rack := Action.top_ok.2 ⟨by decide +kernel, rfl⟩
  have cached : rack.methodCache.All fun e =>
      e.selector = .ref 5 0 → e.cls = o.cls → e.method = .ref 6 0 ∨ e = new := by
    simp only [rack, rackLookups]
    exact MethodCache.all_empty.install fun _ _ => .inl rfl
  have popped : PlainStep flushed m' := by
    have hcell : flushed.fetched.memory.cell (.ref 12 0) 8 = some (.ref 5 0) := by decide +kernel
    have hbyte : flushed.nextByte? = some 135 := by decide +kernel
    have hpop : Action.pop flushed.fetched = .ok (.ref 5 0) m' :=
      Action.pop_ok.2 ⟨hcell, by decide, rfl⟩
    have hfetch : Action.fetchInstruction flushed = .ok .pop flushed.fetched :=
      Action.fetchInstruction_eq hbyte rfl rfl
    refine ⟨?_, .pop, flushed.fetched, hfetch, rfl⟩
    rw [Action.step_eq, bind_of_ok hfetch]
    exact bind_of_ok (f := fun _ => pure ()) hpop
  have found : lookupEntry m'.memory o.cls (.ref 5 0) m'.specials.nil = .ok (some new) := by
    decide +kernel
  have ready : m'.Accessing .at (.ref 5 0) (.ref 9 0) o := by
    have harray : m'.memory.cell (.ref 12 0) 6 = some (.ref 9 0) := by decide +kernel
    have hindex : m'.memory.cell (.ref 12 0) 7 = some (.small 1) := by decide +kernel
    refine ⟨by decide +kernel, by decide +kernel, by decide +kernel, ⟨[.small 1], ?_⟩, by decide +kernel⟩
    exact (bind_of_ok (Action.stackValue_ok.2 ⟨by decide, harray, rfl⟩)).trans
      (bind_of_ok (bind_of_ok (Action.stackValue_ok.2 ⟨by decide, hindex, rfl⟩)))
  have forgotten : rack.atCache.find .at (.ref 9 0) o.hash = none := by decide +kernel
  have covers : Flush.selector.Covers (.ref 5 0) (.ref 6 0) (.ref 5 0) := rfl
  obtain ⟨htry, hnext, -⟩ := next_access (n := 0) top covers cached (.single popped) found ready
  exact ⟨o, top, covers, cached, .single popped, found, ready, forgotten, htry, hnext (.inr forgotten)⟩

end Flush

end Smalltalk
