import Smalltalk.Proofs.Elements
import Smalltalk.Proofs.Resends

/-!
# Sizes by bytecode

The bytecode for `size` answers the number of indexed elements of a value on the spot. The bytecodes for
`at:` and `at:put:` only do so for an array that a send of the plain selector has accessed before, so
that a method of its class comes first. This one looks at the value and at nothing else: if the value is
indexed, its size is answered as the primitive would, whatever method a send of `size` finds. Where the
method is another one, the two ways part.
-/

namespace Smalltalk

open Outcome

variable {m m' : Machine} {v selector cls : Value} {size : Option Nat} {n limit : Nat} {new : CacheEntry}

/-- The machine comes to the bytecode for `size`, with a receiver on top of the stack. -/
structure Machine.Asks (m : Machine) (selector v cls : Value) : Prop where
  bytecode : m.nextByte? = some 194
  calls : m.CallsSpecial 18 ⟨selector, 0, cls⟩
  top : Action.top m = .ok v m

/-- The machine after a send was counted and its method was found. -/
def Machine.finding (m : Machine) (cache : MethodCache) : Machine := { m.sent with methodCache := cache }

/-- The machine that is about to try the primitive of a method. -/
def Machine.trying (m : Machine) (found : CacheEntry) : Machine :=
  { m with lastPrimitiveSend := some (found.selector, found.cls) }

theorem Attempt.lift_bind {α β : Type} {y : Action α} {f : α → Action β} :
    (liftM (y >>= f) : Attempt β) m = (liftM y >>= fun a => liftM (f a) : Attempt β) m := by
  cases hy : y m with
  | ok a m₁ =>
    rw [bind_of_ok (lift_ok.2 hy)]
    change ofAction (y >>= f) m = ofAction (f a) m₁
    rw [ofAction, ofAction, bind_of_ok hy]
  | error e m₁ =>
    rw [bind_of_error (lift_fault hy)]
    exact lift_fault (bind_of_error hy)

namespace Action

/-- Answers a size in the place of the receiver. -/
def answerSize (n : Nat) : Action Unit := do popThenPush 1 (← positive32 n)

/-! ### The bytecode -/

theorem quickSize_some (htop : top m = .ok v m) (hsize : m.size? v = some (some n))
    (hn : n < 0x100000000) : quickSize m = (do answerSize n; return true) m := by
  unfold quickSize
  rw [bind_of_ok htop, bind_of_ok (indexableSize_of_size? hsize)]
  simp only [if_pos hn, answerSize, bind_assoc]

theorem quickSize_refused (htop : top m = .ok v m) (hsize : m.size? v = some size)
    (hlarge : ∀ n, size = some n → 0x100000000 ≤ n) : quickSize m = .ok false m := by
  unfold quickSize
  rw [bind_of_ok htop, bind_of_ok (indexableSize_of_size? hsize)]
  cases size with
  | none => rfl
  | some n =>
    simp only [if_neg (Nat.not_lt.2 (hlarge n rfl))]
    rfl

theorem allocate_registers {o : Object} (h : allocate o m = .ok v m') : m'.registers = m.registers := by
  obtain ⟨m₁, hash, htrims, -, rfl⟩ := allocate_ok h
  exact htrims.registers

theorem positive32_registers (h : positive32 n m = .ok v m') : m'.registers = m.registers := by
  rcases Nat.lt_or_ge n (2 ^ 30) with hn | hn
  · obtain ⟨-, rfl⟩ := EStateM.Result.ok.inj ((positive32_immediate hn).symm.trans h)
    rfl
  · exact allocate_registers ((positive32_large hn).symm.trans h)

/-- An answer leaves the active context where it is. -/
theorem answerSize_registers {u : Unit} (h : answerSize n m = .ok u m') : m'.registers = m.registers := by
  obtain ⟨x, m₁, hx, hpush⟩ := bind_ok.1 h
  obtain ⟨deep, -, rfl⟩ := popThenPush_ok.1 hpush
  have hsp : m₁.registers.sp - 1 + 1 = m₁.registers.sp := by omega
  rw [← positive32_registers hx]
  simp [pushed, popped, Machine.withRegisters, hsp]

/-! ### The send -/

/-- The primitive answers the same. -/
theorem size_eq (htop : top m = .ok v m) (hsize : m.size? v = some (some n)) (hn : n < 0x100000000) :
    Primitive.size 0 m = (do
      liftM (answerSize n)
      return Completion.done : Attempt Completion) m := by
  have hcounted : (liftM (indexableSize v) : Attempt (Option Nat)) m = .ok (some n) m :=
    Attempt.lift_ok.2 (indexableSize_of_size? hsize)
  have hboxed : Attempt.newPositive32 n m = (liftM (positive32 n) : Attempt Value) m :=
    bind_of_ok (Attempt.require_of hn)
  unfold Primitive.size
  rw [bind_of_ok (Attempt.lift_ok.2 htop), bind_of_ok hcounted]
  refine (Attempt.bind_eq_of_eq hboxed).trans ?_
  have hsplit : (liftM (answerSize n) : Attempt Unit) m =
      (do let x ← liftM (positive32 n); liftM (popThenPush 1 x) : Attempt Unit) m := Attempt.lift_bind
  refine ((Attempt.bind_eq_of_eq hsplit).trans ?_).symm
  rw [bind_assoc]
  rfl

theorem tryPrimitive_size (htop : top m = .ok v m) (hsize : m.size? v = some (some n))
    (hn : n < 0x100000000) : tryPrimitive 62 0 m = (do answerSize n; return Trial.handled) m := by
  obtain ⟨hdone, -, hfault⟩ := tryPrimitive_of_mem (p := ⟨62, "size", Primitive.size⟩) (n := 0) (m := m)
    (by simp [Primitive.all]) (by decide)
  have heq := size_eq htop hsize hn
  cases hanswer : answerSize n m with
  | ok u m₁ =>
    rw [bind_of_ok hanswer]
    exact hdone m₁ (heq.trans (bind_of_ok (Attempt.lift_ok.2 hanswer)))
  | error e m₁ =>
    rw [bind_of_error hanswer]
    exact hfault e m₁ (heq.trans (bind_of_error (Attempt.lift_fault hanswer)))

/-- A send that finds the primitive answers the same. -/
theorem answerSend_size (htop : top m = .ok v m) (hsize : m.size? v = some (some n))
    (hn : n < 0x100000000) (hprimitive : new.primitive = 62) :
    answerSend limit v new 0 m = answerSize n (m.trying new) := by
  have htried := tryPrimitive_size (m := m.trying new) (top_ok.2 ⟨(top_ok.1 htop).1, rfl⟩) hsize hn
  have hmodify : (modify fun m => { m with lastPrimitiveSend := some (new.selector, new.cls) } :
      Action Unit) m = .ok () (m.trying new) := rfl
  unfold answerSend
  simp only [hprimitive, Nat.reduceLT, if_true]
  rw [bind_of_ok hmodify]
  cases hanswer : answerSize n (m.trying new) with
  | ok u m₁ =>
    rw [bind_of_ok hanswer] at htried
    exact bind_of_ok htried
  | error e m₁ =>
    rw [bind_of_error hanswer] at htried
    exact bind_of_error htried

/-- A method without a primitive is run. -/
theorem answerSend_method (hprimitive : new.primitive = 0) :
    answerSend limit v new n m = activateMethod v new.method n m := by
  unfold answerSend
  simp only [hprimitive, Nat.lt_irrefl, if_false]
  rfl

/-- A method starts at its first bytecode. -/
theorem enterMethod_registers {method : Value} {u : Unit} (h : enterMethod v method n m = .ok u m') :
    m'.registers.method = method ∧ m'.registers.pc = 0 := by
  obtain ⟨_, _, hget, h⟩ := bind_ok.1 h
  obtain ⟨rfl, rfl⟩ := get_ok.1 hget
  obtain ⟨header, _, -, h⟩ := bind_ok.1 h
  obtain ⟨c, _, -, h⟩ := bind_ok.1 h
  obtain ⟨nil, _, -, h⟩ := bind_ok.1 h
  obtain ⟨r, _, -, h⟩ := bind_ok.1 h
  obtain ⟨frame, _, -, h⟩ := bind_ok.1 h
  obtain ⟨o, _, -, h⟩ := bind_ok.1 h
  split at h
  · obtain ⟨_, _, hthrow, -⟩ := bind_ok.1 h
    exact (throw_ok.1 hthrow).elim
  · obtain ⟨_, _, -, h⟩ := bind_ok.1 h
    obtain ⟨-, -, -, -, -, rfl⟩ := counted_ok h
    exact ⟨rfl, rfl⟩

end Action

/-! ### The two ways -/

namespace Machine.Asks

open Smalltalk.Action

theorem execute_eq (h : m.Asks selector v cls) : step m = execute (.special 2) m.fetched := by
  rw [Action.step_eq, bind_of_ok (fetchInstruction_eq h.bytecode rfl rfl)]
  rfl

theorem top_fetched (h : m.Asks selector v cls) : Action.top m.fetched = .ok v m.fetched :=
  stackValue_fetched h.top

theorem sendSpecial_eq (h : m.Asks selector v cls) :
    sendSpecial 18 m.fetched = sendToClass selector 0 cls m.fetched := by
  obtain ⟨receiver, hreceiver, hcls⟩ := h.calls.cls
  refine Action.sendSpecial_eq (a := ⟨selector, 0, cls⟩)
    ⟨h.calls.selector, h.calls.argCount, receiver, ?_, ?_⟩
  · exact stackValue_fetched hreceiver
  · exact classOf_ok.2 ⟨(classOf_ok.1 hcls).1, rfl⟩

theorem step_some (h : m.Asks selector v cls) (hsize : m.size? v = some (some n))
    (hn : n < 0x100000000) : step m = answerSize n m.fetched := by
  have hquick : quickSpecial 2 m.fetched = (do answerSize n; return true) m.fetched :=
    quickSize_some h.top_fetched hsize hn
  rw [h.execute_eq]
  cases hanswer : answerSize n m.fetched with
  | ok u m₁ =>
    rw [bind_of_ok hanswer] at hquick
    exact bind_of_ok hquick
  | error e m₁ =>
    rw [bind_of_error hanswer] at hquick
    exact bind_of_error hquick

/-- The bytecode looks at the number of elements only. If that is not known it fails, without indexed
elements or with too many of them it is a send, and otherwise it is answered and the active context goes
on, whatever method a send would find. The send answers the same if it finds the primitive. A method
without a primitive is run from its start instead. -/
theorem step_size (h : m.Asks selector v cls) :
    (m.size? v = none → ∃ e m', step m = .error e m') ∧
    (∀ size, m.size? v = some size → (∀ n, size = some n → 0x100000000 ≤ n) →
      step m = sendToClass selector 0 cls m.fetched) ∧
    ∀ n, m.size? v = some (some n) → n < 0x100000000 →
      step m = answerSize n m.fetched ∧
      (∀ m₁, step m = .ok () m₁ → m₁.registers = m.fetched.registers) ∧
      ∀ new, lookupEntry m.memory cls selector m.specials.nil = .ok (some new) →
        (m.methodCache.All fun e => e.selector = selector → e.cls = cls → e = new) →
        ∃ cache, lookup selector cls m.fetched.sent = .ok (some new) (m.fetched.finding cache) ∧
          sendToClass selector 0 cls m.fetched =
            answerSend (m.resendLimit - 1) v new 0 (m.fetched.finding cache) ∧
          (new.primitive = 62 → sendToClass selector 0 cls m.fetched =
            answerSize n ((m.fetched.finding cache).trying new)) ∧
          (new.primitive = 0 →
            sendToClass selector 0 cls m.fetched =
              activateMethod v new.method 0 (m.fetched.finding cache) ∧
            ∀ m₁, enterMethod v new.method 0 (m.fetched.finding cache) = .ok () m₁ →
              m₁.registers.method = new.method ∧ m₁.registers.pc = 0) := by
  have htop := h.top_fetched
  refine ⟨fun hsize => ?_, fun size hsize hlarge => ?_, fun n hsize hn => ?_⟩
  · cases hrun : indexableSize v m.fetched with
    | ok size m' =>
      have hnone : m.fetched.size? v = none := hsize
      rw [size?_of_indexableSize hrun] at hnone
      cases hnone
    | error e m' =>
      have hquick : quickSpecial 2 m.fetched = .error e m' :=
        (bind_of_ok htop).trans (bind_of_error hrun)
      exact ⟨e, m', h.execute_eq.trans (bind_of_error hquick)⟩
  · have hquick : quickSpecial 2 m.fetched = .ok false m.fetched := quickSize_refused htop hsize hlarge
    rw [h.execute_eq, ← h.sendSpecial_eq]
    exact bind_of_ok hquick
  · have hstep := h.step_some hsize hn
    refine ⟨hstep, fun m₁ hm₁ => answerSize_registers (hstep.symm.trans hm₁), fun new hfound hcache => ?_⟩
    obtain ⟨cache, hlookup⟩ := Action.lookup_eq (m := m.fetched.sent) hfound hcache
    have hsend : sendToClass selector 0 cls m.fetched = answerSend (m.resendLimit - 1) v new 0
        (m.fetched.finding cache) :=
      sendToClass_eq.trans (sendWithin_eq htop hlookup (lookupEntry_some hfound).symm)
    refine ⟨cache, hlookup, hsend, fun hprimitive => ?_, fun hprimitive => ⟨?_, fun m₁ => ?_⟩⟩
    · rw [hsend]
      exact answerSend_size (m := m.fetched.finding cache) (top_ok.2 ⟨(top_ok.1 htop).1, rfl⟩) hsize hn
        hprimitive
    · rw [hsend, answerSend_method hprimitive]
    · exact enterMethod_registers

/-- A class with a method of its own for the size, which has no primitive, and an instance with one named
field and three elements. The active context has the instance on its stack. -/
def sack : Machine :=
  let nil : Value := .ref 0 0
  let header : Value := .small (MethodHeader.encode 0 0 0 false 0).word
  let pointers cls format fields := Object.ofPointers cls format (List.toArray fields)
  let objects := [pointers nil .empty [],
    pointers nil .indexable (List.replicate 23 nil ++ [.ref 7 0]),
    pointers nil .fixed [nil, .ref 3 0, .small (InstanceSpec.encode 1 3)],
    pointers nil .fixedIndexable [.small 1, .ref 4 0, .ref 5 0],
    pointers nil .indexable [.ref 6 0], pointers nil .empty [], .ofMethod nil #[header] #[0, 124],
    pointers nil .indexable (List.replicate 36 nil ++ [.ref 5 0, .small 0]),
    pointers (.ref 2 0) .fixedIndexable [.small 7, .small 1, .small 2, .small 3],
    .ofMethod nil #[header] #[194, 124],
    pointers nil .indexable ([nil, .small 0, .small 0, .ref 9 0, nil, nil, .ref 8 0] ++
      List.replicate 14 nil)]
  let m := Machine.create (filled (.empty .standard) objects)
    { array := .ref 1 0, nil, falseObject := nil, trueObject := nil } {} default
  { m with
    registers := { m.registers with
      context := .ref 10 0
      home := .ref 10 0
      method := .ref 9 0
      sp := 6 } }

/-- The bytecode answers three. A send would run the method of the class, which answers seven. -/
theorem step_size_sack :
    let new : CacheEntry := ⟨.ref 5 0, .ref 2 0, .ref 6 0, 0⟩
    sack.Asks (.ref 5 0) (.ref 8 0) (.ref 2 0) ∧ sack.size? (.ref 8 0) = some (some 3) ∧
    lookupEntry sack.memory (.ref 2 0) (.ref 5 0) sack.specials.nil = .ok (some new) ∧
    (sack.methodCache.All fun e => e.selector = .ref 5 0 → e.cls = .ref 2 0 → e = new) ∧
    (∃ m₁, step sack = .ok () m₁ ∧ Action.top m₁ = .ok (.small 3) m₁ ∧
      m₁.registers = sack.fetched.registers) ∧
    ∃ cache, sendToClass (.ref 5 0) 0 (.ref 2 0) sack.fetched =
      activateMethod (.ref 8 0) (.ref 6 0) 0 (sack.fetched.finding cache) := by
  intro new
  have htop : Action.top sack = .ok (.ref 8 0) sack := top_ok.2 ⟨by decide +kernel, rfl⟩
  have asks : sack.Asks (.ref 5 0) (.ref 8 0) (.ref 2 0) := by
    refine ⟨by decide +kernel, ⟨by decide +kernel, by decide +kernel, .ref 8 0, htop, ?_⟩, htop⟩
    obtain ⟨o, ho, hcls⟩ := Option.map_eq_some_iff.1
      (show (sack.memory.get? (.ref 8 0)).map Object.cls = some (.ref 2 0) by decide +kernel)
    exact classOf_ok.2 ⟨.inr ⟨o, ho, hcls⟩, rfl⟩
  have hsize : sack.size? (.ref 8 0) = some (some 3) := by decide +kernel
  have hfound : lookupEntry sack.memory (.ref 2 0) (.ref 5 0) sack.specials.nil = .ok (some new) := by
    decide +kernel
  have hcache : sack.methodCache.All fun e => e.selector = .ref 5 0 → e.cls = .ref 2 0 → e = new :=
    MethodCache.all_empty
  have hrun : Action.leads step sack (fun _ m₁ =>
      decide (m₁.memory.cell m₁.registers.context m₁.registers.sp = some (.small 3))) = true := by
    decide +kernel
  obtain ⟨⟨⟩, m₁, hstep, hthree⟩ := Action.exists_of_leads hrun
  obtain ⟨-, hstays, hsend⟩ := asks.step_size.2.2 3 hsize (by decide)
  obtain ⟨cache, -, -, -, hmethod⟩ := hsend new hfound hcache
  have htop₁ : Action.top m₁ = .ok (.small 3) m₁ := top_ok.2 ⟨of_decide_eq_true hthree, rfl⟩
  exact ⟨asks, hsize, hfound, hcache, ⟨m₁, hstep, htop₁, hstays m₁ hstep⟩, cache, (hmethod rfl).1⟩

end Machine.Asks

end Smalltalk
