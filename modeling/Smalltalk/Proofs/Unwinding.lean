import Smalltalk.Proofs.Faults
import Smalltalk.Proofs.Frames

/-!
# Unwinding

A return walks down the sender chain twice: first it looks whether the target is there at all, and
then it cuts off the contexts above it one by one, pooling the first of them as it goes. The first
walk changes nothing, so a return that is refused leaves the machine as it was. The second walk
destroys the links that it follows, and pooling writes into the sender field once more; what a run of
it leaves is said for each context on its own, by the contexts that were pooled before it. Nothing is
on the chain twice, so what happens to one context does not touch the others.
-/

namespace Smalltalk

open Outcome

/-! ### Loading registers -/

/-- An object has the cells that its size tells. -/
theorem Memory.exists_cell {memory : Memory} {v : Value} {o : Object} {i : Nat}
    (ho : memory.get? v = some o) (hi : i < o.pointers.size) : ∃ y, memory.cell v i = some y :=
  ⟨_, Memory.cell_eq_some.2 ⟨o, ho, Array.getElem?_eq_getElem hi⟩⟩

namespace MethodHeader

variable {memory memory' : Memory} {method : Value} {header : MethodHeader}

/-- The header stands in the first field. -/
theorem of_ok : MethodHeader.of memory method = .ok header ↔
    memory.cell method 0 = some (.small header.word) := by
  unfold MethodHeader.of Memory.cell
  cases memory.get? method with
  | none => simp
  | some o =>
    rcases ho : o.pointers[0]? with _ | word | _
    · simp [ho]
    · have shape : (⟨word⟩ : MethodHeader) = header ↔ word = header.word :=
        ⟨fun e => by rw [← e], fun e => by rw [e]⟩
      simp [ho, shape]
    · simp [ho]

end MethodHeader

namespace Action

variable {m m' : Machine} {memory memory' : Memory} {context home method receiver : Value}
  {r : Registers} {header : MethodHeader} {pc sp : Nat} {k l : Int}

theorem loadFrame_of (hr : m.memory.cell home Context.receiver = some receiver)
    (hh : MethodHeader.of m.memory method = .ok header)
    (hk : m.memory.cell context Context.instructionPointer = some (.small k))
    (hpc : Context.decodePc? k header.literalCount = some pc)
    (hl : m.memory.cell context Context.stackPointer = some (.small l))
    (hsp : Context.decodeSp? l = some sp) :
    loadFrame context home method m = .ok () (m.withRegisters
      { context := m.registers.context, home, method, receiver, pc, sp
        literalCount := header.literalCount }) := by
  simp only [loadFrame, bind_ok, modifyRegisters_ok, fetch_ok, get_ok, ofExcept_ok, fetchInt_ok]
  refine ⟨(), _, rfl, receiver, _, ⟨hr, rfl⟩, (), _, rfl, _, _, ⟨rfl, rfl⟩, header, _, ⟨hh, rfl⟩, (),
    _, rfl, k, _, ⟨hk, rfl⟩, ?_⟩
  simp only [hpc, bind_ok, modifyRegisters_ok, fetchInt_ok]
  refine ⟨(), _, rfl, l, _, ⟨hl, rfl⟩, ?_⟩
  simp only [hsp, modifyRegisters_ok]
  rfl

/-- What a context has for the registers is loaded into them. -/
theorem loadRegisters_of_loaded (h : Loaded m.memory context r) :
    loadRegisters context m =
      .ok () (m.withRegisters { r with context := m.registers.context }) := by
  obtain ⟨⟨slot, hslot, hkind⟩, hr, ⟨header, hh, hcount⟩, ⟨k, hk, hpc⟩, ⟨l, hl, hsp⟩⟩ := h
  rw [hcount] at hpc
  refine bind_ok.2 ⟨slot, m, fetch_ok.2 ⟨hslot, rfl⟩, ?_⟩
  rcases hkind with ⟨hsmall, hhome, hmethod⟩ | ⟨hsmall, hhome, hmethod⟩
  · cases slot with
    | small n =>
      refine bind_ok.2 ⟨r.home, m, fetch_ok.2 ⟨hhome, rfl⟩, ?_⟩
      refine bind_ok.2 ⟨r.method, m, fetch_ok.2 ⟨hmethod, rfl⟩, ?_⟩
      rw [loadFrame_of hr hh hk hpc hl hsp, ← hcount]
    | ref index generation => exact absurd hsmall (by simp [Value.isSmall])
  · subst hmethod
    cases hs : r.method with
    | small n =>
      rw [hs] at hsmall
      exact absurd hsmall (by simp [Value.isSmall])
    | ref index generation =>
      rw [hs] at hh
      rw [hhome] at hr
      dsimp only
      rw [loadFrame_of hr hh hk hpc hl hsp, ← hcount, ← hhome, ← hs]

/-- What is loaded from a context depends on few fields. -/
theorem Loaded.congr (h : Loaded memory context r)
    (hcontext : ∀ i, i ≠ Context.sender → memory'.cell context i = memory.cell context i)
    (hhome : ∀ i, Context.method ≤ i → memory'.cell r.home i = memory.cell r.home i)
    (hmethod : memory'.cell r.method 0 = memory.cell r.method 0) : Loaded memory' context r where
  home := by
    obtain ⟨slot, hslot, hkind⟩ := h.home
    refine ⟨slot, by rw [hcontext _ (by decide), hslot], hkind.imp_left fun e => ?_⟩
    rw [hcontext _ (by decide), hhome _ (by decide)]
    exact e
  receiver := by rw [hhome _ (by decide), h.receiver]
  literalCount := by
    obtain ⟨header, hh, hcount⟩ := h.literalCount
    exact ⟨header, MethodHeader.of_ok.2 (hmethod.trans (MethodHeader.of_ok.1 hh)), hcount⟩
  pc := by
    rw [hcontext _ (by decide)]
    exact h.pc
  sp := by
    rw [hcontext _ (by decide)]
    exact h.sp

end Action

/-! ### Contexts that have been left -/

namespace Object

variable {o : Object} {link nil x : Value} {i : Nat}

/-- A context that a return has left: linked to what comes behind it in the pool, and without an
instruction pointer. -/
def cut (link nil : Value) (o : Object) : Object :=
  (o.setPointer Context.sender link).setPointer Context.instructionPointer nil

@[simp] theorem cut_cls : (o.cut link nil).cls = o.cls := rfl

@[simp] theorem cut_size : (o.cut link nil).pointers.size = o.pointers.size := by
  simp [cut, setPointer]

theorem cut_of_ne (hs : i ≠ Context.sender) (hp : i ≠ Context.instructionPointer) :
    (o.cut link nil).pointers[i]? = o.pointers[i]? := by
  simp only [cut, setPointer]
  rw [Array.getElem?_setIfInBounds_ne (Ne.symm hp), Array.getElem?_setIfInBounds_ne (Ne.symm hs)]

/-- Pooling comes last, but it overwrites the sender only. -/
theorem cut_setPointer : (o.cut x nil).setPointer Context.sender link = o.cut link nil := by
  have hne : Context.instructionPointer ≠ Context.sender := by decide
  simp only [cut, setPointer]
  rw [Array.setIfInBounds_comm _ _ hne, Array.setIfInBounds_setIfInBounds]

end Object

/-- Every object is what it was, but for contexts that have been cut off. -/
def Memory.Severed (memory memory' : Memory) : Prop := ∀ v, memory'.get? v = memory.get? v ∨
  ∃ link nil, memory'.get? v = (memory.get? v).map (Object.cut link nil)

/-- Cutting contexts off touches their first two fields. -/
theorem Memory.Severed.cell {memory memory' : Memory} {v : Value} {i : Nat}
    (h : memory.Severed memory') (hs : i ≠ Context.sender) (hp : i ≠ Context.instructionPointer) :
    memory'.cell v i = memory.cell v i := by
  rw [Memory.cell, Memory.cell]
  rcases h v with hsame | ⟨link, nil, hcut⟩
  · rw [hsame]
  · rw [hcut, Option.bind_map]
    exact congrArg _ (funext fun o => Object.cut_of_ne hs hp)

namespace Machine

variable {m m₁ m' : Machine} {path rest : List Value} {c v : Value} {large : Bool} {i : Nat}

/-- The chain of the pool that takes a context, if one does. -/
def poolFor (m : Machine) (c : Value) : Option Bool :=
  ContextPool.chainOf? m.memory c (m.specials.get m.memory Special.classMethodContext)

/-- The pool looks at the class and the size of a context, which stay when contexts are cut off. -/
theorem poolFor_of_severed (hspecials : m'.specials = m.specials)
    (h : m.memory.Severed m'.memory) : m'.poolFor v = m.poolFor v := by
  have hcls : m'.specials.get m'.memory Special.classMethodContext =
      m.specials.get m.memory Special.classMethodContext := by
    rw [hspecials]
    exact congrArg (·.getD m.specials.nil) (h.cell (v := m.specials.array)
      (i := Special.classMethodContext) (by decide) (by decide))
  rw [poolFor, poolFor, hcls]
  unfold ContextPool.chainOf?
  rcases h v with hsame | ⟨link, nil, hcut⟩
  · rw [hsame]
  · rw [hcut]
    cases m.memory.get? v with
    | none => rfl
    | some o =>
      simp only [Option.map_some, Option.bind_eq_bind, Option.bind_some, Object.cut_size]
      rfl

/-- The first context of a chain of the pool once a path has been left: the last one of the path that
was put there, or else the one that was there before. -/
def headAfter (m : Machine) (path : List Value) (large : Bool) : Option Value :=
  ((path.take m.reclaimable).filter fun c => m.poolFor c = some large).getLast?.or
    (m.pool.head large)

/-- What a context of a path is linked to once the path has been left: what was first in the pool
when the context was put there, and nil if it was not. -/
def linkAfter (m : Machine) (path : List Value) (c : Value) : Value :=
  if c ∈ path.take m.reclaimable then
    ((m.poolFor c).bind (m.headAfter (path.takeWhile (· ≠ c)))).getD m.specials.nil
  else m.specials.nil

/-- `m'` is `m` with the contexts of a path left one after the other. The first ones, as many as
nothing else can refer to, were offered to the pool. -/
structure Unwound (m : Machine) (path : List Value) (m' : Machine) : Prop where
  severed : ∀ c ∈ path, m'.memory.get? c =
    (m.memory.get? c).map (Object.cut (m.linkAfter path c) m.specials.nil)
  other : ∀ v ∉ path, m'.memory.get? v = m.memory.get? v
  head : ∀ large, m'.pool.head large = m.headAfter path large
  recycled : m'.pool.recycled =
    m.pool.recycled + (path.take m.reclaimable).countP fun c => (m.poolFor c).isSome
  allocated : m'.pool.allocated = m.pool.allocated
  reclaimable : m'.reclaimable = m.reclaimable - path.length
  rest : ∃ slots pool reclaimable,
    m' = { m with memory := { m.memory with slots }, pool, reclaimable }

/-- Cutting a context off clears two fields. -/
theorem get?_severed (m : Machine) (c nil v : Value) :
    (Recycling.Sealed.severed m c nil).memory.get? v =
      if v = c then (m.memory.get? c).map (Object.cut nil nil) else m.memory.get? v := by
  simp only [Recycling.Sealed.severed, setCell, Memory.get?_setField]
  by_cases hv : v = c
  · simp only [hv, if_true, Option.map_map]
    rfl
  · simp only [hv, if_false]

/-- Storing into a field touches nothing but the slots. -/
theorem setCell_frame (m : Machine) (c : Value) (i : Nat) (x : Value) :
    ∃ slots, m.setCell c i x = { m with memory := { m.memory with slots } } :=
  ⟨_, congrArg (fun memory => { m with memory }) (Memory.modify_frame ..)⟩

theorem severed_frame (m : Machine) (c nil : Value) :
    ∃ slots, Recycling.Sealed.severed m c nil = { m with memory := { m.memory with slots } } := by
  obtain ⟨_, hs⟩ := m.setCell_frame c Context.sender nil
  obtain ⟨slots, hp⟩ := Machine.setCell_frame _ c Context.instructionPointer nil
  exact ⟨slots, by rw [Recycling.Sealed.severed, hs, hp]⟩

/-- Two fields of a context are cleared, and then it may be offered to the pool. -/
theorem sever_eq (hc : ∃ y, m.memory.cell c Context.instructionPointer = some y) :
    Action.sever c m = (do
      if 0 < (← get).reclaimable then
        modify fun m => { m with reclaimable := m.reclaimable - 1 }
        Action.recycleContext c : Action Unit)
      (Recycling.Sealed.severed m c m.specials.nil) := by
  obtain ⟨y, hy⟩ := hc
  obtain ⟨x, hx⟩ : ∃ x, m.memory.cell c Context.sender = some x := by
    obtain ⟨o, ho, hy⟩ := Memory.cell_eq_some.1 hy
    exact Memory.exists_cell ho (Nat.lt_of_succ_lt (Array.getElem?_eq_some_iff.1 hy).1)
  have hy' : (m.setCell c Context.sender m.specials.nil).memory.cell c
      Context.instructionPointer = some y := by
    rw [cell_setCell ⟨x, hx⟩, Cells.set_of_index_ne (by decide), hy]
  refine (bind_of_ok (Action.nil_ok.2 ⟨rfl, rfl⟩)).trans ?_
  refine (bind_of_ok (a := ()) (Action.store_ok.2 ⟨⟨x, hx⟩, rfl⟩)).trans ?_
  exact bind_of_ok (a := ()) (Action.store_ok.2 ⟨⟨y, hy'⟩, rfl⟩)

namespace Unwound

theorem refl (m : Machine) : m.Unwound [] m where
  severed c hc := absurd hc List.not_mem_nil
  other _ _ := rfl
  head large := by simp [headAfter]
  recycled := by simp
  allocated := rfl
  reclaimable := rfl
  rest := ⟨_, _, _, rfl⟩

theorem specials (h : m.Unwound path m') : m'.specials = m.specials := by
  obtain ⟨_, _, _, rfl⟩ := h.rest
  rfl

theorem registers (h : m.Unwound path m') : m'.registers = m.registers := by
  obtain ⟨_, _, _, rfl⟩ := h.rest
  rfl

theorem isSevered (h : m.Unwound path m') : m.memory.Severed m'.memory := fun v =>
  if hv : v ∈ path then .inr ⟨_, _, h.severed v hv⟩ else .inl (h.other v hv)

theorem poolFor (h : m.Unwound path m') : m'.poolFor v = m.poolFor v :=
  poolFor_of_severed h.specials h.isSevered

/-- What comes first in the pool after two paths. -/
theorem headAfter_append (h : m.Unwound path m₁) (rest : List Value) (large : Bool) :
    m.headAfter (path ++ rest) large = m₁.headAfter rest large := by
  simp only [headAfter, h.poolFor, h.head, h.reclaimable, List.take_append, List.filter_append,
    List.getLast?_append, Option.or_assoc]

/-- A context of the first path is linked as if there were no second one. -/
theorem linkAfter_append_left (hc : c ∈ path) (hrest : c ∉ rest) :
    m.linkAfter (path ++ rest) c = m.linkAfter path c := by
  have htake : c ∈ (path ++ rest).take m.reclaimable ↔ c ∈ path.take m.reclaimable := by
    rw [List.take_append, List.mem_append]
    exact or_iff_left fun hmem => hrest (List.mem_of_mem_take hmem)
  have hshort : (path.takeWhile (· ≠ c)).length ≠ path.length := fun e => by
    have hall := List.takeWhile_eq_self_iff.1 ((List.takeWhile_prefix _).eq_of_length e) c hc
    simp at hall
  simp only [linkAfter, htake, List.takeWhile_append, if_neg hshort]

/-- A context of the second path is linked as after the first one. -/
theorem linkAfter_append_right (h : m.Unwound path m₁) (hc : c ∉ path) :
    m.linkAfter (path ++ rest) c = m₁.linkAfter rest c := by
  have htake : c ∈ (path ++ rest).take m.reclaimable ↔ c ∈ rest.take m₁.reclaimable := by
    rw [List.take_append, List.mem_append, h.reclaimable]
    exact or_iff_right fun hmem => hc (List.mem_of_mem_take hmem)
  have hwhole : path.takeWhile (· ≠ c) = path :=
    List.takeWhile_eq_self_iff.2 fun x hx => by
      simpa using fun e : x = c => hc (e ▸ hx)
  have hhead : m.headAfter (path ++ rest.takeWhile (· ≠ c)) =
      m₁.headAfter (rest.takeWhile (· ≠ c)) := funext (h.headAfter_append _)
  simp only [linkAfter, htake, List.takeWhile_append, hwhole, if_true, h.poolFor, hhead, h.specials]

/-- Two paths that have no context in common are left one after the other. -/
theorem trans (h : m.Unwound path m₁) (h' : m₁.Unwound rest m')
    (hdisjoint : ∀ c ∈ path, c ∉ rest) : m.Unwound (path ++ rest) m' where
  severed c hc := by
    by_cases hpath : c ∈ path
    · have hrest := hdisjoint c hpath
      rw [h'.other c hrest, h.severed c hpath, linkAfter_append_left hpath hrest]
    · have hrest := (List.mem_append.1 hc).resolve_left hpath
      rw [h'.severed c hrest, h.other c hpath, h.linkAfter_append_right hpath, h.specials]
  other v hv := by
    rw [List.mem_append, not_or] at hv
    rw [h'.other v hv.2, h.other v hv.1]
  head large := by rw [h'.head, h.headAfter_append]
  recycled := by
    rw [h'.recycled, h.recycled, h.reclaimable, List.take_append, List.countP_append, Nat.add_assoc]
    simp only [h.poolFor]
  allocated := h'.allocated.trans h.allocated
  reclaimable := by rw [h'.reclaimable, h.reclaimable, List.length_append, Nat.sub_sub]
  rest := by
    obtain ⟨_, _, _, rfl⟩ := h.rest
    obtain ⟨slots, pool, reclaimable, rfl⟩ := h'.rest
    exact ⟨slots, pool, reclaimable, rfl⟩

/-- A single context as a path: what is to be seen of it. -/
theorem single {link : Value} (hlink : m.linkAfter [c] c = link)
    (hget : ∀ v, m'.memory.get? v =
      if v = c then (m.memory.get? c).map (Object.cut link m.specials.nil) else m.memory.get? v)
    (hhead : ∀ large, m'.pool.head large = m.headAfter [c] large)
    (hrecycled : m'.pool.recycled =
      m.pool.recycled + ([c].take m.reclaimable).countP fun c => (m.poolFor c).isSome)
    (hallocated : m'.pool.allocated = m.pool.allocated)
    (hreclaimable : m'.reclaimable = m.reclaimable - 1)
    (hrest : ∃ slots pool reclaimable,
      m' = { m with memory := { m.memory with slots }, pool, reclaimable }) :
    m.Unwound [c] m' where
  severed v hv := by
    obtain rfl := List.mem_singleton.1 hv
    rw [hget, if_pos rfl, hlink]
  other v hv := by rw [hget, if_neg fun e => hv (List.mem_singleton.2 e)]
  head := hhead
  recycled := hrecycled
  allocated := hallocated
  reclaimable := hreclaimable
  rest := hrest

/-- A context that has been cut off is put into the pool, if it has the right class and size. -/
theorem pooled {slots : Array Slot} (hoffered : 0 < m.reclaimable)
    (hget : ∀ v, { m.memory with slots }.get? v = if v = c then
      (m.memory.get? c).map (Object.cut m.specials.nil m.specials.nil) else m.memory.get? v) :
    ∃ m', Action.recycleContext c
      { m with memory := { m.memory with slots }, reclaimable := m.reclaimable - 1 } = .ok () m' ∧
      m.Unwound [c] m' := by
  obtain ⟨m', hrun⟩ : ∃ m', Action.recycleContext c
      { m with memory := { m.memory with slots }, reclaimable := m.reclaimable - 1 } = .ok () m' :=
    ⟨_, rfl⟩
  have hsevered : m.memory.Severed { m.memory with slots } := fun v => by
    by_cases hv : v = c
    · exact .inr ⟨_, _, by rw [hget, if_pos hv, hv]⟩
    · exact .inl (by rw [hget, if_neg hv])
  have hpool : Machine.poolFor { m with
      memory := { m.memory with slots }, reclaimable := m.reclaimable - 1 } c = m.poolFor c :=
    poolFor_of_severed rfl hsevered
  have htake : [c].take m.reclaimable = [c] := List.take_of_length_le hoffered
  refine ⟨m', hrun, ?_⟩
  rcases Recycling.recycleContext_ok hrun with ⟨hnone, rfl⟩ | ⟨large, hsome, rfl⟩
  · have hnone := hpool.symm.trans hnone
    have hlink : m.linkAfter [c] c = m.specials.nil := by simp [linkAfter, htake, hnone]
    refine single hlink hget ?_ ?_ rfl rfl ⟨_, _, _, rfl⟩
    · simp [headAfter, htake, hnone]
    · simp [htake, hnone]
  · have hsome := hpool.symm.trans hsome
    obtain ⟨slots', hslots⟩ := setCell_frame { m with
      memory := { m.memory with slots }, reclaimable := m.reclaimable - 1 } c Context.sender
      ((m.pool.head large).getD m.specials.nil)
    have hlink : m.linkAfter [c] c = (m.pool.head large).getD m.specials.nil := by
      simp [linkAfter, htake, hsome, headAfter]
    refine single hlink (fun v => ?_) (fun side => ?_) ?_ ?_ rfl ?_
    · change (Memory.setField _ c Context.sender _).get? v = _
      rw [Memory.get?_setField, hget, if_pos rfl, hget]
      by_cases hv : v = c
      · simp only [hv, if_true, Option.map_map]
        exact congrArg (Option.map · _) (funext fun o => Object.cut_setPointer)
      · simp only [hv, if_false]
    · change (m.pool.setHead large (some c)).head side = _
      rw [Recycling.head_setHead]
      by_cases hside : side = large
      · simp [headAfter, htake, hsome, hside]
      · simp [headAfter, htake, hsome, hside, Ne.symm hside]
    · change (m.pool.setHead large (some c)).recycled + 1 = _
      have hone : ([c].countP fun c => (m.poolFor c).isSome) = 1 := by simp [hsome]
      rw [htake, hone]
      cases large <;> rfl
    · change (m.pool.setHead large (some c)).allocated = _
      cases large <;> rfl
    · rw [hslots]
      exact ⟨_, _, _, rfl⟩

/-- A context is left. -/
theorem sever (hc : ∃ y, m.memory.cell c Context.instructionPointer = some y) :
    ∃ m', Action.sever c m = .ok () m' ∧ m.Unwound [c] m' := by
  rw [sever_eq hc, bind_of_ok (get_ok.2 ⟨rfl, rfl⟩)]
  have hget := get?_severed m c m.specials.nil
  obtain ⟨slots, hframe⟩ := severed_frame m c m.specials.nil
  rw [hframe] at hget ⊢
  by_cases hoffered : 0 < m.reclaimable
  · rw [if_pos hoffered, bind_of_ok (a := ()) (modify_ok.2 rfl)]
    exact pooled hoffered hget
  · have hzero : m.reclaimable = 0 := Nat.eq_zero_of_not_pos hoffered
    rw [if_neg hoffered]
    have hlink : m.linkAfter [c] c = m.specials.nil := by simp [linkAfter, hzero]
    refine ⟨_, rfl, single hlink hget ?_ ?_ rfl ?_ ⟨_, _, _, rfl⟩⟩
    · simp [headAfter, hzero]
    · simp [hzero]
    · simp [hzero]

/-- The contexts of a path are left one after the other. -/
theorem forM (hnodup : path.Nodup)
    (hcells : ∀ c ∈ path, ∃ y, m.memory.cell c Context.instructionPointer = some y) :
    ∃ m', path.forM Action.sever m = .ok () m' ∧ m.Unwound path m' := by
  induction path generalizing m with
  | nil => exact ⟨m, rfl, .refl m⟩
  | cons c path ih =>
    obtain ⟨hc, hnodup⟩ := List.nodup_cons.1 hnodup
    obtain ⟨m₁, hsever, hfirst⟩ := sever (hcells c List.mem_cons_self)
    obtain ⟨m', hrun, hrest⟩ := ih (m := m₁) hnodup fun x hx => by
      have hne : x ∉ [c] := fun e => hc (List.mem_singleton.1 e ▸ hx)
      rw [Memory.cell, hfirst.other x hne]
      exact hcells x (List.mem_cons_of_mem c hx)
    refine ⟨m', ?_, hfirst.trans hrest fun x hx => by rwa [List.mem_singleton.1 hx]⟩
    exact (bind_of_ok hsever).trans hrun

end Unwound

end Machine

/-! ### The way to the target -/

/-- The contexts of a chain above one of them are a chain down to it. -/
theorem Strung.takeWhile {c : Cells} {last target : Value} {ps : List Value} (h : Strung c last ps)
    (htarget : target ∈ ps) : Strung c target (ps.takeWhile (· ≠ target)) := by
  induction ps with
  | nil => exact absurd htarget List.not_mem_nil
  | cons p ps ih =>
    by_cases hp : p = target
    · rw [List.takeWhile_cons, if_neg (by simpa using hp)]
      trivial
    · have hmem := (List.mem_cons.1 htarget).resolve_left (Ne.symm hp)
      rw [List.takeWhile_cons, if_pos (by simpa using hp)]
      refine ⟨?_, ih h.2 hmem⟩
      rw [h.1]
      cases ps with
      | nil => exact absurd hmem List.not_mem_nil
      | cons q qs => by_cases hq : q = target <;> simp [hq]

namespace Action

variable {m m' : Machine} {chain path : List Value} {target context value : Value} {r : Registers}
  {hops : Nat}

/-- A walk down a chain that ends finds a target on it, with the contexts above it. -/
theorem senderPathWithin_of_mem (hchain : Strung m.memory.cell m.specials.nil chain)
    (hhead : chain.head?.getD m.specials.nil = context) (hnil : m.specials.nil ∉ chain)
    (hlength : chain.length ≤ hops) (htarget : target ∈ chain) :
    senderPathWithin target hops context m = .ok (chain.takeWhile (· ≠ target)) m := by
  induction chain generalizing hops context with
  | nil => exact absurd htarget List.not_mem_nil
  | cons p ps ih =>
    obtain rfl : p = context := hhead
    obtain ⟨hp, hps⟩ := List.ne_and_not_mem_of_not_mem_cons hnil
    cases hops with
    | zero => exact absurd hlength (by simp)
    | succ hops =>
      unfold senderPathWithin
      by_cases hfound : p = target
      · rw [if_pos hfound, List.takeWhile_cons, if_neg (by simpa using hfound)]
        rfl
      · have hmem := (List.mem_cons.1 htarget).resolve_left (Ne.symm hfound)
        have hrest := ih hchain.2 rfl hps (Nat.le_of_succ_le_succ hlength) hmem
        rw [if_neg hfound, bind_of_ok (nil_ok.2 ⟨rfl, rfl⟩), if_neg (Ne.symm hp),
          List.takeWhile_cons, if_pos (by simpa using hfound)]
        refine (bind_of_ok (fetch_ok.2 ⟨hchain.1, rfl⟩)).trans ?_
        exact bind_of_ok hrest

/-- A walk down a chain that ends does not find a target that is not on it. -/
theorem senderPathWithin_of_not_mem (hchain : Strung m.memory.cell m.specials.nil chain)
    (hhead : chain.head?.getD m.specials.nil = context) (hnil : m.specials.nil ∉ chain)
    (hlength : chain.length ≤ hops) (htarget : target ∉ chain) (hne : target ≠ m.specials.nil) :
    senderPathWithin target hops context m = .error (.cannotReturn target) m := by
  induction chain generalizing hops context with
  | nil =>
    obtain rfl : m.specials.nil = context := hhead
    cases hops <;>
    · unfold senderPathWithin
      rw [if_neg (Ne.symm hne), bind_of_ok (nil_ok.2 ⟨rfl, rfl⟩), if_pos rfl]
      rfl
  | cons p ps ih =>
    obtain rfl : p = context := hhead
    obtain ⟨hp, hps⟩ := List.ne_and_not_mem_of_not_mem_cons hnil
    obtain ⟨hfound, hmem⟩ := List.ne_and_not_mem_of_not_mem_cons htarget
    cases hops with
    | zero => exact absurd hlength (by simp)
    | succ hops =>
      have hrest := ih hchain.2 rfl hps (Nat.le_of_succ_le_succ hlength) hmem
      unfold senderPathWithin
      rw [if_neg (Ne.symm hfound), bind_of_ok (nil_ok.2 ⟨rfl, rfl⟩), if_neg (Ne.symm hp)]
      refine (bind_of_ok (fetch_ok.2 ⟨hchain.1, rfl⟩)).trans ?_
      exact bind_of_error hrest

end Action

/-! ### Faults of a load -/

/-- A fault about the shape of what was found in the heap. -/
def Fault.OfShape : Fault → Prop
  | .invalidReference _ | .malformed _ _ => True
  | _ => False

namespace Action

/-- An action that fails only because of the shape of what it finds. -/
abbrev ShapeOnly {α : Type} (x : Action α) : Prop := Raises (fun f _ => f.OfShape) x

variable {α : Type} {v w context x : Value} {i : Nat}

instance {flaw : Flaw} : ShapeOnly (throw (.malformed flaw v) : Action α) :=
  Raises.throw fun _ => trivial

instance {f : Registers → Registers} : ShapeOnly (modifyRegisters f) := ⟨fun h => nomatch h⟩

theorem shapeOnly_ofExcept {y : Except Fault α} (hy : ∀ f, y = .error f → f.OfShape) :
    ShapeOnly (ofExcept y) where
  error h := by
    cases y with
    | ok a => cases h
    | error f =>
      obtain ⟨rfl, rfl⟩ := EStateM.Result.error.inj h
      exact hy f rfl

instance : ShapeOnly (fetch v i) := by
  unfold fetch
  refine .after fun m => shapeOnly_ofExcept fun f hf => ?_
  unfold Memory.field at hf
  split at hf
  · exact Except.error.inj hf ▸ trivial
  · split at hf
    · cases hf
    · exact Except.error.inj hf ▸ trivial

instance {memory : Memory} : ShapeOnly (ofExcept (MethodHeader.of memory v)) := by
  refine shapeOnly_ofExcept fun f hf => ?_
  unfold MethodHeader.of at hf
  split at hf
  · exact Except.error.inj hf ▸ trivial
  · split at hf
    · cases hf
    · exact Except.error.inj hf ▸ trivial

instance : ShapeOnly (fetchInt v i) := by
  unfold fetchInt
  refine .after fun found => ?_
  split <;> infer_instance

instance : ShapeOnly (loadFrame v w x) := by
  unfold loadFrame
  iterate 7 refine .after fun _ => ?_
  have rest : ShapeOnly (do
      let stored ← fetchInt v Context.stackPointer
      match Context.decodeSp? stored with
      | none => throw (.malformed .stackPointer v)
      | some sp => modifyRegisters fun r => { r with sp }) := by
    refine .after fun stored => ?_
    split <;> infer_instance
  dsimp only
  split <;> infer_instance

instance : ShapeOnly (loadRegisters v) := by
  unfold loadRegisters
  refine .after fun slot => ?_
  split <;> infer_instance

instance : ShapeOnly registers := by unfold registers; infer_instance

instance {f : Memory → Memory} : ShapeOnly (modifyMemory f) := ⟨fun h => nomatch h⟩

instance : ShapeOnly (store v i x) := by unfold store; infer_instance

instance : ShapeOnly (push x) := by unfold push; infer_instance

end Action

/-! ### Returns -/

namespace Machine

variable {m m' : Machine} {chain path : List Value} {target value k : Value} {r : Registers}

/-- The sender chain of the active context, which ends in nil. As each context has one sender and nil
is not among them, it meets nothing twice. -/
structure SenderChain (m : Machine) (chain : List Value) : Prop where
  head : chain.head?.getD m.specials.nil = m.registers.context
  linked : Strung m.memory.cell m.specials.nil chain
  ends : m.specials.nil ∉ chain
  fixed : ∀ c ∈ chain, ∃ o, m.memory.get? c = some o ∧ Context.frameStart ≤ o.pointers.size

/-- What a return refuses: to go nowhere, to a context that has been left, and to one that is not a
sender. -/
def Refuses (m : Machine) (chain : List Value) (target : Value) : Prop :=
  target = m.specials.nil ∨
    m.memory.cell target Context.instructionPointer = some m.specials.nil ∨ target ∉ chain

instance : Decidable (m.Refuses chain target) := inferInstanceAs (Decidable (_ ∨ _ ∨ _))

/-- A way down to a target that a return can take. The contexts on it are no methods, as they have a
reference where a method has its header. -/
structure Passage (m : Machine) (path : List Value) (target : Value) : Prop where
  ne_nil : target ≠ m.specials.nil
  entered : ∃ k, m.memory.cell target Context.instructionPointer = some k ∧ k ≠ m.specials.nil
  walk : Action.senderPath target m = .ok path m
  nodup : path.Nodup
  not_mem : target ∉ path
  cells : ∀ c ∈ path, ∃ y, m.memory.cell c Context.instructionPointer = some y
  sender : ∀ c ∈ path, ∃ x, m.memory.cell c Context.sender = some x ∧ x.isSmall = false

theorem Passage.method_not_mem (h : m.Passage path target) (hload : Action.Loaded m.memory target r) :
    r.method ∉ path := fun hmem => by
  obtain ⟨header, hheader, -⟩ := hload.literalCount
  obtain ⟨x, hx, hsmall⟩ := h.sender _ hmem
  obtain rfl := Option.some.inj (hx.symm.trans (MethodHeader.of_ok.1 hheader))
  exact absurd hsmall (by simp [Value.isSmall])

namespace SenderChain

theorem nodup (h : m.SenderChain chain) : chain.Nodup := h.linked.nodup h.ends

theorem length_le (h : m.SenderChain chain) : chain.length ≤ m.memory.slots.size + 1 :=
  Nat.le_succ_of_le (Memory.length_le_of_isLive h.nodup fun _ hc => h.linked.isLive hc)

theorem senderPath_of_not_mem (h : m.SenderChain chain) (htarget : target ∉ chain)
    (hne : target ≠ m.specials.nil) :
    Action.senderPath target m = .error (.cannotReturn target) m :=
  Action.senderPathWithin_of_not_mem h.linked h.head h.ends h.length_le htarget hne

/-- The contexts above one of the chain are a way down to it. -/
theorem passage (h : m.SenderChain chain) (hrefuses : ¬ m.Refuses chain target)
    (hk : ∃ k, m.memory.cell target Context.instructionPointer = some k) :
    m.Passage (chain.takeWhile (· ≠ target)) target := by
  simp only [Refuses, not_or, not_not] at hrefuses
  obtain ⟨hne, hleft, hmem⟩ := hrefuses
  obtain ⟨k, hk⟩ := hk
  have habove := (List.takeWhile_prefix (l := chain) (· ≠ target)).subset
  exact {
    ne_nil := hne
    entered := ⟨k, hk, fun e => hleft (e ▸ hk)⟩
    walk := Action.senderPathWithin_of_mem h.linked h.head h.ends h.length_le hmem
    nodup := h.nodup.sublist (List.takeWhile_sublist _)
    not_mem := fun htarget => by simpa using List.mem_takeWhile_imp htarget
    cells := fun c hc => by
      obtain ⟨o, ho, hsize⟩ := h.fixed c (habove hc)
      exact Memory.exists_cell ho (Nat.lt_of_lt_of_le (by decide) hsize)
    sender := fun c hc => by
      obtain ⟨x, hx, hnext⟩ := (h.linked.takeWhile hmem).linked hc
      have hlive := h.linked.isLive (hnext.elim (fun e => e ▸ hmem) (habove ·))
      cases x with
      | small n => exact absurd hlive (by simp [Memory.isLive])
      | ref index generation => exact ⟨_, hx, rfl⟩ }

end SenderChain

end Machine

namespace Action

variable {m m' m₁ : Machine} {chain path : List Value} {target value : Value} {r : Registers}

/-- Past its checks, a return leaves the contexts on its way and goes on in the target. -/
theorem returnTo_eq (h : m.Passage path target) (hrun : path.forM sever m = .ok () m₁) :
    returnTo value target m = (do
      modifyRegisters fun r => { r with context := target }
      loadRegisters target
      push value : Action Unit) m₁ := by
  obtain ⟨k, hk, hleft⟩ := h.entered
  refine (bind_of_ok (nil_ok.2 ⟨rfl, rfl⟩)).trans ?_
  dsimp only
  rw [if_neg h.ne_nil]
  refine (bind_of_ok (fetch_ok.2 ⟨hk, rfl⟩)).trans ?_
  rw [if_neg hleft]
  exact (bind_of_ok h.walk).trans (bind_of_ok hrun)

/-- A return that has a way leaves the contexts on it, loads the registers from the target and pushes
the value there. -/
theorem returnTo_of_passage (value : Value) (h : m.Passage path target)
    (hload : Loaded m.memory target r)
    (hroom : ∃ y, m.memory.cell target (r.sp + 1) = some y) :
    ∃ m₁, m.Unwound path m₁ ∧ returnTo value target m =
      .ok () (pushed (m₁.withRegisters { r with context := target }) value) := by
  obtain ⟨m₁, hrun, hunwound⟩ := Machine.Unwound.forM h.nodup h.cells
  have hsame : ∀ v ∉ path, ∀ i, m₁.memory.cell v i = m.memory.cell v i := fun v hv i => by
    rw [Memory.cell, hunwound.other v hv, Memory.cell]
  have hhome : ∀ i, Context.method ≤ i → m₁.memory.cell r.home i = m.memory.cell r.home i :=
    fun i hi => hunwound.isSevered.cell (fun e => absurd (e ▸ hi) (by decide))
      fun e => absurd (e ▸ hi) (by decide)
  have hloaded : Loaded m₁.memory target r := hload.congr (fun i _ => hsame _ h.not_mem i) hhome
    (hsame _ (h.method_not_mem hload) 0)
  refine ⟨m₁, hunwound, (returnTo_eq h hrun).trans ?_⟩
  refine (bind_of_ok (a := ()) (modifyRegisters_ok.2 rfl)).trans ?_
  refine (bind_of_ok (loadRegisters_of_loaded
    (m := m₁.withRegisters { m₁.registers with context := target }) hloaded)).trans ?_
  exact push_ok.2 ⟨by rw [← hsame _ h.not_mem] at hroom; exact hroom, rfl⟩

/-- A return that has a way does not fail for want of a target. -/
theorem returnTo_ne_cannotReturn {c : Value} (h : m.Passage path target) :
    returnTo value target m ≠ .error (.cannotReturn c) m' := fun hfault => by
  obtain ⟨m₁, hrun, -⟩ := Machine.Unwound.forM h.nodup h.cells
  have hshape : ShapeOnly (do
      modifyRegisters fun r => { r with context := target }
      loadRegisters target
      push value : Action Unit) := inferInstance
  exact hshape.error ((returnTo_eq h hrun).symm.trans hfault)

/-- A return that is refused leaves the machine as it was. -/
theorem returnTo_of_refuses (h : m.SenderChain chain) (hrefuses : m.Refuses chain target)
    (htarget : target = m.specials.nil ∨ ∃ k,
      m.memory.cell target Context.instructionPointer = some k) :
    returnTo value target m = .error (.cannotReturn target) m := by
  refine (bind_of_ok (nil_ok.2 ⟨rfl, rfl⟩)).trans ?_
  dsimp only
  by_cases hne : target = m.specials.nil
  · rw [if_pos hne]
    rfl
  · obtain ⟨k, hk⟩ := htarget.resolve_left hne
    rw [if_neg hne]
    refine (bind_of_ok (fetch_ok.2 ⟨hk, rfl⟩)).trans ?_
    by_cases hleft : k = m.specials.nil
    · rw [if_pos hleft]
      rfl
    · have hmem : target ∉ chain := by
        rcases hrefuses with h | h | h
        · exact absurd h hne
        · exact absurd (Option.some.inj (hk.symm.trans h)) hleft
        · exact h
      rw [if_neg hleft]
      exact bind_of_error (h.senderPath_of_not_mem hmem hne)

/-- A return to nil or to a context fails for want of a target exactly when it is refused, and then
the machine is as before. Otherwise, if the target is well formed and has room on its stack, the
contexts above it on the sender chain are left, and the machine goes on in the target with the value
on top of the stack. -/
theorem returnTo_unwinds (h : m.SenderChain chain) (value : Value)
    (htarget : target = m.specials.nil ∨
      ∃ o, m.memory.get? target = some o ∧ Context.frameStart ≤ o.pointers.size) :
    ((∃ c m', returnTo value target m = .error (.cannotReturn c) m') ↔ m.Refuses chain target) ∧
    (m.Refuses chain target → returnTo value target m = .error (.cannotReturn target) m) ∧
    (¬ m.Refuses chain target → ∀ r, Loaded m.memory target r →
      (∃ y, m.memory.cell target (r.sp + 1) = some y) →
      ∃ m₁, m.Unwound (chain.takeWhile (· ≠ target)) m₁ ∧
        returnTo value target m =
          .ok () (pushed (m₁.withRegisters { r with context := target }) value)) := by
  have hcell : target = m.specials.nil ∨
      ∃ k, m.memory.cell target Context.instructionPointer = some k := by
    refine htarget.imp_right fun ⟨o, ho, hsize⟩ => ?_
    exact Memory.exists_cell ho (Nat.lt_of_lt_of_le (by decide) hsize)
  have passage : ¬ m.Refuses chain target → m.Passage (chain.takeWhile (· ≠ target)) target :=
    fun hallowed => h.passage hallowed (hcell.resolve_left fun e => hallowed (.inl e))
  refine ⟨⟨fun ⟨c, m', hfault⟩ => ?_, fun hrefuses => ?_⟩, fun hrefuses => ?_,
    fun hallowed r hload hroom => ?_⟩
  · by_contra hallowed
    exact returnTo_ne_cannotReturn (passage hallowed) hfault
  · exact ⟨target, m, returnTo_of_refuses h hrefuses hcell⟩
  · exact returnTo_of_refuses h hrefuses hcell
  · exact returnTo_of_passage value (passage hallowed) hload hroom

/-- Three contexts of a method without literals, each the sender of the next. -/
def ladderObjects : List Object :=
  let nil : Value := .ref 0 0
  let context (sender : Value) := Object.ofPointers (.ref 2 0) .indexable
    (List.toArray ([sender, .small 5, .small 0, .ref 3 0, nil, nil] ++ List.replicate 17 nil))
  [.ofPointers nil .empty #[],
    .ofPointers nil .indexable (List.toArray (List.replicate 10 nil ++ [.ref 2 0])),
    .ofPointers nil .empty #[], .ofMethod nil #[.small 0] #[120],
    context nil, context (.ref 4 0), context (.ref 5 0)]

/-- The last one is active, and nothing else refers to it. -/
def ladder : Machine :=
  let nil : Value := .ref 0 0
  let m := Machine.create (Machine.filled (.empty .standard) ladderObjects)
    { array := .ref 1 0, nil, falseObject := nil, trueObject := nil } {} default
  { m with
    registers := { m.registers with
      context := .ref 6 0
      home := .ref 6 0
      method := .ref 3 0
      sp := 5 }
    reclaimable := 1 }

/-- The registers that are loaded from the first context of the ladder. -/
def ladderFoot : Registers where
  context := .ref 4 0
  home := .ref 4 0
  method := .ref 3 0
  receiver := .ref 0 0
  pc := 0
  sp := 5
  literalCount := 0

/-- A return over two contexts, of which the first goes to the pool. -/
theorem returnTo_ladder :
    ladder.SenderChain [.ref 6 0, .ref 5 0, .ref 4 0] ∧
    ¬ ladder.Refuses [.ref 6 0, .ref 5 0, .ref 4 0] (.ref 4 0) ∧
    Loaded ladder.memory (.ref 4 0) ladderFoot ∧
    ∃ m₁, ladder.Unwound [.ref 6 0, .ref 5 0] m₁ ∧
      returnTo (.small 3) (.ref 4 0) ladder =
        .ok () (pushed (m₁.withRegisters ladderFoot) (.small 3)) := by
  have hchain : ladder.SenderChain [.ref 6 0, .ref 5 0, .ref 4 0] := by
    refine ⟨by decide, ⟨?_, ?_, ?_, trivial⟩, by decide, ?_⟩
    iterate 3 decide +kernel
    intro c hc
    have hsizes : ∀ c ∈ [Value.ref 6 0, .ref 5 0, .ref 4 0],
        (ladder.memory.get? c).any (Context.frameStart ≤ ·.pointers.size) = true := by
      decide +kernel
    obtain ⟨o, ho, hsize⟩ := (Option.any_eq_true _ _).1 (hsizes c hc)
    exact ⟨o, ho, of_decide_eq_true hsize⟩
  have hallowed : ¬ ladder.Refuses [.ref 6 0, .ref 5 0, .ref 4 0] (.ref 4 0) := by
    decide +kernel
  have hload : Loaded ladder.memory (.ref 4 0) ladderFoot :=
    ⟨⟨.ref 3 0, by decide +kernel, .inr ⟨rfl, rfl, rfl⟩⟩, by decide +kernel,
      ⟨⟨0⟩, MethodHeader.of_ok.2 (by decide +kernel), by decide⟩,
      ⟨5, by decide +kernel, by decide⟩, ⟨0, by decide +kernel, by decide⟩⟩
  have hroom : ladder.memory.cell (.ref 4 0) 6 = some (.ref 0 0) := by decide +kernel
  exact ⟨hchain, hallowed, hload, (returnTo_unwinds hchain (.small 3) (.inr
    (hchain.fixed (.ref 4 0) (by decide)))).2.2 hallowed ladderFoot hload ⟨_, hroom⟩⟩

end Action

end Smalltalk
