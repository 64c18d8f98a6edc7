import Mathlib
import Smalltalk.Proofs.Conduct

/-!
# Chains of contexts

Contexts are linked through their sender field: the senders of the active context, and the contexts
that wait in the pool. A chain is a list of contexts each of which is linked to the next, the last
one to what comes after the list. As a field holds one value, the way from a context to another one
is unique and meets nothing twice.

A memory never gives a reference out twice, so what has been issued is never the reference to a new
object.
-/

namespace Smalltalk

open Outcome

namespace Memory

variable {m m' : Memory} {v : Value} {o : Object}

/-! ### Issued references -/

/-- A value that the memory has given out: an immediate integer, the reference to an object, or one
from an earlier generation of its slot. -/
def Issued (m : Memory) : Value → Prop
  | .small _ => True
  | .ref index generation => ∃ slot, m.slots[index.toNat]? = some slot ∧
      (generation.toNat < slot.generation.toNat ∨
        generation.toNat = slot.generation.toNat ∧ slot.object.isSome = true)

theorem issued_of_isLive (h : m.isLive v = true) : m.Issued v := by
  obtain ⟨o, ho⟩ := isLive_iff.1 h
  obtain ⟨index, generation, slot, rfl, hs, hg, hobject⟩ := get?_eq_some.1 ho
  exact ⟨slot, hs, .inr ⟨hg.symm, by rw [hobject]; rfl⟩⟩

/-- What has been issued stays so. -/
theorem Later.issued (h : Later m m') (hv : m.Issued v) : m'.Issued v := by
  cases v with
  | small n => trivial
  | ref index generation =>
    obtain ⟨slot, hs, hslot⟩ := hv
    obtain ⟨slot', hs', hlater⟩ := h.slot _ slot hs
    refine ⟨slot', hs', ?_⟩
    rcases hlater with hlt | ⟨hsame, hkept⟩
    · rcases hslot with hg | ⟨hg, -⟩
      · exact .inl (Nat.lt_trans hg hlt)
      · exact .inl (hg ▸ hlt)
    · rw [hsame]
      rcases hslot with hg | ⟨hg, hobject⟩
      · exact .inl hg
      · exact .inr ⟨hg, hkept hobject⟩

/-- The reference to a new object was not issued before. -/
theorem Stocked.place_unissued (h : m.Stocked) (room : (m.place o).2.slots.size ≤ 0x100000000)
    (live : (m.place o).2.isLive (m.place o).1 = true) : ¬ m.Issued (m.place o).1 := by
  cases hf : m.free with
  | nil =>
    simp only [Memory.place, hf, Array.size_push] at room
    have hindex : (UInt32.ofNat m.slots.size).toNat = m.slots.size :=
      UInt32.toNat_ofNat_of_lt' (Nat.lt_of_succ_le room)
    simp only [Memory.place, hf]
    rintro ⟨slot, hs, -⟩
    rw [hindex, Array.getElem?_size] at hs
    exact absurd hs (by simp)
  | cons i free =>
    obtain ⟨slot, hs, ho⟩ := h.vacant i (by rw [hf]; exact List.mem_cons_self)
    simp only [Memory.place, hf, hs, Option.map_some, Option.getD_some] at live ⊢
    rintro ⟨slot', hs', hg⟩
    rw [hs] at hs'
    obtain rfl := Option.some.inj hs'
    -- an object that its reference reaches is in a generation the reference has room for
    obtain ⟨o', ho'⟩ := isLive_iff.1 live
    obtain ⟨index, generation, slot'', hv, hs'', hg'', -⟩ := get?_eq_some.1 ho'
    simp only [Value.reference, Value.ref.injEq] at hv
    obtain ⟨rfl, rfl⟩ := hv
    simp only [Array.getElem?_modify, if_true, hs, Option.map_some, Option.some.injEq] at hs''
    subst hs''
    rcases hg with hg | ⟨-, hobject⟩
    · exact absurd hg (Nat.not_lt.2 (Nat.le_of_eq hg''))
    · rw [ho] at hobject
      exact absurd hobject (by simp)

end Memory

/-! ### Links -/

/-- Each context is linked to the one behind it through its sender field, and the last one to
`last`. -/
def Strung (c : Cells) (last : Value) : List Value → Prop
  | [] => True
  | p :: ps => c p Context.sender = some (ps.head?.getD last) ∧ Strung c last ps

/-- Whether `y` is `x` or stands on the sender chain of `x`. -/
def OnChain (c : Cells) (x y : Value) : Prop :=
  ∃ path : List Value, path.head?.getD y = x ∧ Strung c y path

namespace Strung

variable {c c' : Cells} {last p w x : Value} {ps qs : List Value}

theorem congr (h : ∀ p ∈ ps, c' p Context.sender = c p Context.sender) (hps : Strung c last ps) :
    Strung c' last ps := by
  induction ps with
  | nil => trivial
  | cons p ps ih =>
    obtain ⟨hp, hps⟩ := hps
    refine ⟨?_, ih (fun q hq => h q (List.mem_cons_of_mem p hq)) hps⟩
    rw [h p List.mem_cons_self, hp]

/-- A context of a chain is linked to another one of it or to what comes after it. -/
theorem linked (h : Strung c last ps) (hp : p ∈ ps) :
    ∃ x, c p Context.sender = some x ∧ (x = last ∨ x ∈ ps) := by
  induction ps with
  | nil => exact absurd hp List.not_mem_nil
  | cons q ps ih =>
    rcases List.mem_cons.1 hp with rfl | hp
    · refine ⟨_, h.1, ?_⟩
      cases ps with
      | nil => exact .inl rfl
      | cons r ps => exact .inr (List.mem_cons_of_mem p List.mem_cons_self)
    · obtain ⟨x, hx, hmem⟩ := ih h.2 hp
      exact ⟨x, hx, hmem.imp_right (List.mem_cons_of_mem q)⟩

theorem isLive {m : Memory} (h : Strung m.cell last ps) (hp : p ∈ ps) : m.isLive p = true := by
  obtain ⟨x, hx, -⟩ := h.linked hp
  exact Memory.isLive_of_cell hx

/-- A chain can be reached when its first context can. -/
theorem reachable {m : Memory} {roots : List Value} (h : Strung m.cell last ps)
    (hhead : ∀ x, ps.head? = some x → m.Reachable roots x) (hp : p ∈ ps) :
    m.Reachable roots p := by
  induction ps with
  | nil => exact absurd hp List.not_mem_nil
  | cons q ps ih =>
    have hq := hhead q rfl
    rcases List.mem_cons.1 hp with rfl | hp
    · exact hq
    · refine ih h.2 (fun r hr => ?_) hp
      have hlive := h.isLive (List.mem_cons_of_mem q (List.mem_of_head? hr))
      have hcell := h.1
      rw [hr] at hcell
      obtain ⟨cls, pointers, hs, hmem⟩ := Memory.mem_of_cell hcell
      exact hq.shape hs hmem hlive

theorem suffix {front : List Value} (h : Strung c last (front ++ ps)) : Strung c last ps := by
  induction front with
  | nil => exact h
  | cons p front ih => exact ih h.2

/-- There is one way to a context that is not on the way. -/
theorem unique (hps : Strung c last ps) (hqs : Strung c last qs)
    (hhead : ps.head?.getD last = qs.head?.getD last) (hp : last ∉ ps) (hq : last ∉ qs) :
    ps = qs := by
  induction ps generalizing qs with
  | nil =>
    cases qs with
    | nil => rfl
    | cons q qs =>
      obtain rfl : last = q := hhead
      exact absurd List.mem_cons_self hq
  | cons p ps ih =>
    cases qs with
    | nil =>
      obtain rfl : p = last := hhead
      exact absurd List.mem_cons_self hp
    | cons q qs =>
      obtain rfl : p = q := hhead
      have hnext := Option.some.inj (hps.1.symm.trans hqs.1)
      rw [ih hps.2 hqs.2 hnext (fun h => hp (List.mem_cons_of_mem p h))
        fun h => hq (List.mem_cons_of_mem p h)]

/-- The way to a context that is not on the way meets nothing twice. -/
theorem nodup (h : Strung c last ps) (hlast : last ∉ ps) : ps.Nodup := by
  induction ps with
  | nil => exact List.nodup_nil
  | cons p ps ih =>
    have hrest : last ∉ ps := fun hmem => hlast (List.mem_cons_of_mem p hmem)
    refine List.nodup_cons.2 ⟨fun hp => ?_, ih h.2 hrest⟩
    -- a second visit would start the same way again, which is shorter
    obtain ⟨front, back, rfl⟩ := List.append_of_mem hp
    have hback : last ∉ p :: back := fun hmem => hrest (List.mem_append_right front hmem)
    have hsame := h.unique h.2.suffix rfl hlast hback
    have hlength := congrArg List.length hsame
    simp only [List.length_cons, List.length_append] at hlength
    omega

end Strung

namespace OnChain

variable {c : Cells} {last p q x : Value} {ps : List Value}

theorem refl (c : Cells) (x : Value) : OnChain c x x := ⟨[], rfl, trivial⟩

theorem step (hp : c p Context.sender = some q) (h : OnChain c q x) : OnChain c p x := by
  obtain ⟨path, hhead, hpath⟩ := h
  exact ⟨p :: path, rfl, by rw [hhead]; exact hp, hpath⟩

/-- The contexts of a chain, and what comes after it, are on the sender chain of the first. -/
theorem of_strung (h : Strung c last ps) (hx : x = last ∨ x ∈ ps) :
    OnChain c (ps.head?.getD last) x := by
  induction ps with
  | nil =>
    obtain rfl := hx.resolve_right List.not_mem_nil
    exact .refl c x
  | cons p ps ih =>
    by_cases hxp : x = p
    · subst hxp
      exact .refl c x
    · exact .step h.1 (ih h.2 (hx.imp_right fun hmem => (List.mem_cons.1 hmem).resolve_left hxp))

end OnChain

/-! ### Neighbours -/

section Neighbours

variable {p w x : Value} {ps : List Value}

theorem pair_cons :
    [w, x] <:+: p :: ps ↔ (w = p ∧ ps.head? = some x) ∨ [w, x] <:+: ps := by
  rw [List.infix_cons_iff, List.cons_prefix_cons]
  cases ps with
  | nil => simp
  | cons q ps => simp [eq_comm]

theorem mem_of_pair (h : [w, x] <:+: ps) : w ∈ ps ∧ x ∈ ps :=
  ⟨h.subset List.mem_cons_self, h.subset (List.mem_cons_of_mem w List.mem_cons_self)⟩

/-- Nothing stands before the first of a list. -/
theorem not_pair_head (h : (x :: ps).Nodup) : ¬ [w, x] <:+: x :: ps := by
  have hx := (List.nodup_cons.1 h).1
  rw [pair_cons]
  rintro (⟨-, hhead⟩ | hpair)
  · exact hx (List.mem_of_head? hhead)
  · exact hx (mem_of_pair hpair).2

end Neighbours

/-! ### The way of a return -/

/-- The contexts that a return leaves are a chain down to its target. -/
theorem Machine.gives_senderPathWithin {m : Machine} {target context : Value} {hops : Nat} :
    Gives (Action.senderPathWithin target hops context) m fun path m' => m = m' ∧
      path.head?.getD target = context ∧ Strung m.memory.cell target path ∧ target ∉ path ∧
      m.specials.nil ∉ path := by
  have arrived : context = target → m = m ∧ ([] : List Value).head?.getD target = context ∧
      Strung m.memory.cell target [] ∧ target ∉ ([] : List Value) ∧
      m.specials.nil ∉ ([] : List Value) := fun e =>
    ⟨rfl, e.symm, trivial, List.not_mem_nil, List.not_mem_nil⟩
  induction hops generalizing context with
  | zero =>
    unfold Action.senderPathWithin
    refine .ite (fun e => .pure (arrived e)) fun _ => .bind (gives_nil ?_)
    exact .ite (fun _ => .throw) fun _ => .throw
  | succ hops ih =>
    unfold Action.senderPathWithin
    refine .ite (fun e => .pure (arrived e)) fun htarget => .bind (gives_nil ?_)
    refine .ite (fun _ => .throw) fun hnil => .bind (gives_fetch fun next hnext => ?_)
    refine .bind (ih (fun e => ⟨rfl, e.symm, trivial, List.not_mem_nil, List.not_mem_nil⟩) |>.mono ?_)
    rintro path _ ⟨rfl, hhead, hstrung, hpath, hsome⟩
    refine .pure ⟨rfl, rfl, ⟨by rw [hhead]; exact hnext, hstrung⟩, ?_, ?_⟩
    · exact List.not_mem_cons_of_ne_of_not_mem (Ne.symm htarget) hpath
    · exact List.not_mem_cons_of_ne_of_not_mem (Ne.symm hnil) hsome

/-- The contexts that were left on the way from one active context to another. -/
def Way (m m' : Machine) (path : List Value) : Prop :=
  path.head?.getD m'.registers.context = m.registers.context ∧
    Strung m.memory.cell m'.registers.context path ∧ m'.registers.context ∉ path

theorem Way.unique {m m' : Machine} {path path' : List Value} (h : Way m m' path)
    (h' : Way m m' path') : path = path' :=
  h.2.1.unique h'.2.1 (h.1.trans h'.1.symm) h.2.2 h'.2.2

end Smalltalk
