import Smalltalk.Proofs.Resends

/-!
# Every step ends

A step follows chains of superclasses and senders and hands sends on. A chain that is followed further
than there are objects goes round in a circle. A send that is handed on again and again takes its
arguments out of an array that comes up among its own elements, or is not understood time after time.
There is no other way for a step not to end, and so a run of so many steps ends as well.

How often a step may hand a send on is counted so that it is more often than it could without one of
these two. A greater limit would change nothing of a step that comes to its end within it.
-/

namespace Smalltalk

open Outcome

variable {memory : Memory} {S : Value → Prop} {v w x y : Value} {n : Nat}

/-! ### Arrays within arrays -/

/-- An array of a kind has a value among its elements. -/
def Holds (memory : Memory) (S : Value → Prop) (v w : Value) : Prop := S v ∧ w ∈ memory.fields v

/-- Some array leads back to itself by way of arrays of that kind. -/
def Coils (memory : Memory) (S : Value → Prop) : Prop := ∃ v, Relation.TransGen (Holds memory S) v v

/-- There are arrays of that kind, `n` levels deep. -/
def Deep (memory : Memory) (S : Value → Prop) : Nat → Value → Prop
  | 0, v => S v
  | n + 1, v => S v ∧ ∃ w ∈ memory.fields v, Deep memory S n w

/-- Who goes deeper than there are objects comes back to where he was. -/
theorem coils_of_deep (hlive : ∀ v, S v → memory.isLive v = true) {above : List Value}
    (hnodup : above.Nodup) (habove : ∀ u ∈ above, S u ∧ Relation.TransGen (Holds memory S) u v)
    (h : Deep memory S n v) (hn : memory.population < above.length + n + 1) : Coils memory S := by
  induction n generalizing v above with
  | zero =>
    by_cases hv : v ∈ above
    · exact ⟨v, (habove v hv).2⟩
    · have hle := Memory.length_le_population (List.nodup_cons.2 ⟨hv, hnodup⟩) fun u hu => by
        rcases List.mem_cons.1 hu with rfl | hu
        · exact hlive u h
        · exact hlive u (habove u hu).1
      rw [List.length_cons] at hle
      omega
  | succ n ih =>
    obtain ⟨hS, w, hw, hdeep⟩ := h
    by_cases hv : v ∈ above
    · exact ⟨v, (habove v hv).2⟩
    · have hlink : Relation.TransGen (Holds memory S) v w := .single ⟨hS, hw⟩
      refine ih (List.nodup_cons.2 ⟨hv, hnodup⟩) (fun u hu => ?_) hdeep ?_
      · rcases List.mem_cons.1 hu with rfl | hu
        · exact ⟨hS, hlink⟩
        · exact ⟨(habove u hu).1, (habove u hu).2.trans hlink⟩
      · rw [List.length_cons]
        omega

open Classical in
/-- How much there is to take off the stack for a value, if the arrays of that kind are replaced by
their elements, at most `n` levels deep. -/
noncomputable def weight (memory : Memory) (S : Value → Prop) : Nat → Value → Nat
  | 0, _ => 1
  | n + 1, v => if S v then 1 + ((memory.fields v).map (weight memory S n)).sum else 1

theorem weight_pos : 0 < weight memory S n v := by
  cases n with
  | zero => exact Nat.one_pos
  | succ n =>
    rw [weight]
    split
    · omega
    · exact Nat.one_pos

/-- Going deeper counts for more only where there is something deeper. -/
theorem deep_of_weight_ne (h : weight memory S (n + 1) v ≠ weight memory S n v) :
    Deep memory S n v := by
  induction n generalizing v with
  | zero =>
    by_contra hS
    refine h ?_
    rw [weight, weight]
    exact if_neg hS
  | succ n ih =>
    rw [weight, weight] at h
    by_cases hS : S v
    · rw [if_pos hS, if_pos hS] at h
      refine ⟨hS, ?_⟩
      by_contra hnone
      push Not at hnone
      refine h (congrArg (1 + List.sum ·) (List.map_congr_left fun w hw => ?_))
      by_contra hne
      exact hnone w hw (ih hne)
    · rw [if_neg hS, if_neg hS] at h
      exact absurd rfl h

/-- Where no array coils, an array weighs one more than its elements. -/
theorem weight_of_not_coils (hlive : ∀ v, S v → memory.isLive v = true) (hcoils : ¬ Coils memory S)
    (hv : S v) : weight memory S memory.population v =
      1 + ((memory.fields v).map (weight memory S memory.population)).sum := by
  have hstable : weight memory S (memory.population + 1) v = weight memory S memory.population v := by
    by_contra hne
    exact hcoils (coils_of_deep hlive List.nodup_nil (fun u hu => absurd hu List.not_mem_nil)
      (deep_of_weight_ne hne) (by simp))
  rw [← hstable, weight, if_pos hv]

theorem weight_le {room : Nat} (hroom : ∀ v, S v → (memory.fields v).length ≤ room) :
    weight memory S n v ≤ (room + 1) ^ n := by
  induction n generalizing v with
  | zero => exact Nat.le_refl 1
  | succ n ih =>
    have hpos : 0 < (room + 1) ^ n := Nat.pow_pos (Nat.succ_pos room)
    rw [weight, Nat.pow_succ, Nat.mul_succ]
    split
    · rename_i hS
      have hsum := List.sum_le_card_nsmul ((memory.fields v).map (weight memory S n)) ((room + 1) ^ n)
        fun k hk => by
          obtain ⟨w, -, rfl⟩ := List.mem_map.1 hk
          exact ih
      rw [List.length_map, smul_eq_mul] at hsum
      have := Nat.mul_le_mul_right ((room + 1) ^ n) (hroom v hS)
      rw [Nat.mul_comm room] at this
      omega
    · omega

/-! ### Handing on comes to an end -/

section

open Machine

variable {m : Machine} {s u : Machine × Sending} {way : List (Machine × Sending)}

theorem Machine.Beside.fields {m' : Machine} (h : Beside m m') (hv : v ≠ m.registers.context) :
    m'.memory.fields v = m.memory.fields v := by
  rw [Memory.fields, Memory.fields, h.get? v hv]

theorem Machine.mem_fields_of_mem_stacked (h : x ∈ m.stacked) :
    x ∈ m.memory.fields m.registers.context := by
  obtain ⟨i, -, hcell⟩ := List.mem_filterMap.1 h
  obtain ⟨o, ho, hi⟩ := Memory.cell_eq_some.1 hcell
  rw [Memory.fields, ho, Option.map_some, Option.getD_some]
  exact Array.mem_toList_iff.2 (Array.mem_of_getElem? hi)

theorem Machine.stacked_length_le (m : Machine) : m.stacked.length ≤ m.room := by
  have hnone : ∀ i, m.room ≤ i → m.memory.cell m.registers.context i = none := by
    intro i hi
    rw [room] at hi
    rw [Memory.cell]
    cases ho : m.memory.get? m.registers.context with
    | none => rfl
    | some o =>
      rw [ho, Option.map_some, Option.getD_some] at hi
      exact Array.getElem?_eq_none hi
  rcases Nat.le_total (m.registers.sp + 1) m.room with hle | hle
  · refine (List.length_filterMap_le _ _).trans ?_
    rwa [List.length_range]
  · obtain ⟨k, hk⟩ := Nat.exists_eq_add_of_le hle
    have hbeyond : (List.range' m.room k).filterMap (m.memory.cell m.registers.context) = [] :=
      List.filterMap_eq_nil_iff.2 fun i hi => hnone i (List.mem_range'_1.1 hi).1
    rw [stacked, hk, List.range_eq_range', ← List.range'_append_1, Nat.zero_add,
      List.filterMap_append, hbeyond, List.append_nil, ← List.range_eq_range']
    refine (List.length_filterMap_le _ _).trans ?_
    rw [List.length_range]

/-- Whatever stands on the stack has come there from the active context by way of arrays that were
spread out, as long as the context has not been spread out itself. -/
theorem coils_of_spread_context (hS : ∀ t ∈ way, ∀ v, Spreads t v → S v) (h : Handed way s u)
    (hunderstood : ∀ t ∈ way, Understood t) (hbeside : Beside m s.1)
    (hstacked : ∀ x ∈ s.1.stacked, Relation.TransGen (Holds m.memory S) m.registers.context x) :
    Coils m.memory S ∨ ∀ t ∈ way, ¬ Spreads t m.registers.context := by
  induction h with
  | here => exact .inr fun t ht => absurd ht List.not_mem_nil
  | @on way s t u hon hway ih =>
    obtain ⟨hstep, array?, hrelays, hspreads⟩ :=
      Action.relays_of_handsOn hon (hunderstood s List.mem_cons_self)
    have rest := ih (fun t ht => hS t (List.mem_cons_of_mem s ht))
      (fun t ht => hunderstood t (List.mem_cons_of_mem s ht)) (hbeside.trans hstep)
    cases hrelays with
    | @drop base remains selector before after =>
      refine (rest fun x hx => hstacked x ?_).imp id fun hrest t ht => ?_
      · rw [after] at hx
        rw [before]
        exact List.Sublist.subset (List.Sublist.append_left (List.sublist_cons_self _ _) base) hx
      · rcases List.mem_cons.1 ht with rfl | ht
        · exact fun hspread => nomatch (hspreads _).1 hspread
        · exact hrest t ht
    | @spread base remains selector array before after live fits =>
      have harray : Relation.TransGen (Holds m.memory S) m.registers.context array :=
        hstacked array (by rw [before]; simp)
      by_cases hne : array = m.registers.context
      · exact .inl ⟨_, hne ▸ harray⟩
      · have hSarray := hS s List.mem_cons_self array ((hspreads array).2 rfl)
        refine (rest fun x hx => ?_).imp id fun hrest t ht => ?_
        · rw [after, hbeside.fields hne] at hx
          rcases List.mem_append.1 hx with hx | hx
          · exact hstacked x (by rw [before]; exact List.mem_append_left _ hx)
          · exact harray.tail ⟨hSarray, hx⟩
        · rcases List.mem_cons.1 ht with rfl | ht
          · exact fun hspread => hne (Option.some.inj ((hspreads _).1 hspread))
          · exact hrest t ht

/-- Each time that a send is handed on, the stack becomes lighter. -/
theorem length_add_weight_le {weigh : Value → Nat} (hpos : ∀ v, 0 < weigh v)
    (hweigh : ∀ v, S v → weigh v = 1 + ((m.memory.fields v).map weigh).sum)
    (hS : ∀ t ∈ way, ∀ v, Spreads t v → S v) (hcontext : ¬ S m.registers.context)
    (h : Handed way s u) (hunderstood : ∀ t ∈ way, Understood t) (hbeside : Beside m s.1) :
    way.length + (u.1.stacked.map weigh).sum ≤ (s.1.stacked.map weigh).sum := by
  induction h with
  | here => rw [List.length_nil, Nat.zero_add]
  | @on way s t u hon hway ih =>
    obtain ⟨hstep, array?, hrelays, hspreads⟩ :=
      Action.relays_of_handsOn hon (hunderstood s List.mem_cons_self)
    have rest := ih (fun t ht => hS t (List.mem_cons_of_mem s ht))
      (fun t ht => hunderstood t (List.mem_cons_of_mem s ht)) (hbeside.trans hstep)
    rw [List.length_cons]
    suffices hlighter : (t.1.stacked.map weigh).sum < (s.1.stacked.map weigh).sum by omega
    cases hrelays with
    | @drop base remains selector before after =>
      have := hpos selector
      rw [before, after]
      simp only [List.map_append, List.sum_append, List.map_cons, List.sum_cons]
      omega
    | @spread base remains selector array before after live fits =>
      have harray := hS s List.mem_cons_self array ((hspreads array).2 rfl)
      have hne : array ≠ m.registers.context := fun e => hcontext (e ▸ harray)
      have := hpos selector
      rw [before, after, hbeside.fields hne]
      simp only [List.map_append, List.sum_append, List.map_cons, List.sum_cons, hweigh array harray]
      omega

/-- Arrays that are spread out are there, and have no more elements than the context has fields. -/
theorem live_of_spread (h : Handed way s u) (hunderstood : ∀ t ∈ way, Understood t)
    (hbeside : Beside m s.1) {t : Machine × Sending} (ht : t ∈ way) (hv : Spreads t v)
    (hne : v ≠ m.registers.context) :
    m.memory.isLive v = true ∧ (m.memory.fields v).length ≤ m.room := by
  induction h with
  | here => exact absurd ht List.not_mem_nil
  | @on way s t' u hon hway ih =>
    obtain ⟨hstep, array?, hrelays, hspreads⟩ :=
      Action.relays_of_handsOn hon (hunderstood s List.mem_cons_self)
    rcases List.mem_cons.1 ht with rfl | ht
    · obtain rfl := (hspreads v).1 hv
      cases hrelays with
      | spread before after live fits =>
        rw [hbeside.fields hne, hbeside.room] at fits
        rw [Memory.isLive, hbeside.get? v hne] at live
        exact ⟨live, fits⟩
    · exact ih (fun t ht => hunderstood t (List.mem_cons_of_mem s ht)) (hbeside.trans hstep) ht

/-- A send that is understood whenever it is handed on is not handed on for ever: after so many times
an array has come up again among its own elements. -/
theorem coils_of_handed (h : Handed way s u) (hunderstood : ∀ t ∈ way, Understood t)
    (hlong : (s.1.room + 1) ^ (s.1.memory.population + 1) < way.length) :
    Coils s.1.memory fun v => ∃ t ∈ way, Spreads t v := by
  by_contra hcoils
  have hS : ∀ t ∈ way, ∀ v, Spreads t v → ∃ t ∈ way, Spreads t v := fun t ht v hv => ⟨t, ht, hv⟩
  have hcontext : ¬ ∃ t ∈ way, Spreads t s.1.registers.context := by
    rintro ⟨t, ht, hspread⟩
    rcases coils_of_spread_context hS h hunderstood (.refl s.1) fun x hx =>
      .single ⟨⟨t, ht, hspread⟩, mem_fields_of_mem_stacked hx⟩ with hcoils' | hnot
    · exact hcoils hcoils'
    · exact hnot t ht hspread
  have hfits : ∀ v, (∃ t ∈ way, Spreads t v) →
      s.1.memory.isLive v = true ∧ (s.1.memory.fields v).length ≤ s.1.room := by
    rintro v ⟨t, ht, hspread⟩
    exact live_of_spread h hunderstood (.refl s.1) ht hspread fun e => hcontext ⟨t, ht, e ▸ hspread⟩
  let weigh := weight s.1.memory (fun v => ∃ t ∈ way, Spreads t v) s.1.memory.population
  have hlight : way.length + (u.1.stacked.map weigh).sum ≤ (s.1.stacked.map weigh).sum :=
    length_add_weight_le (fun _ => weight_pos)
      (fun v hv => weight_of_not_coils (fun v hv => (hfits v hv).1) hcoils hv) hS hcontext h
      hunderstood (.refl s.1)
  have hsum : (s.1.stacked.map weigh).sum ≤
      (s.1.stacked.map weigh).length • (s.1.room + 1) ^ s.1.memory.population :=
    List.sum_le_card_nsmul _ _ fun k hk => by
      obtain ⟨v, -, rfl⟩ := List.mem_map.1 hk
      exact weight_le fun v hv => (hfits v hv).2
  rw [List.length_map, smul_eq_mul] at hsum
  refine Nat.lt_irrefl way.length ?_
  calc way.length ≤ (s.1.stacked.map weigh).sum := (Nat.le_add_right _ _).trans hlight
    _ ≤ s.1.stacked.length * (s.1.room + 1) ^ s.1.memory.population := hsum
    _ ≤ (s.1.room + 1) * (s.1.room + 1) ^ s.1.memory.population :=
      Nat.mul_le_mul_right _ (s.1.stacked_length_le.trans (Nat.le_succ _))
    _ = (s.1.room + 1) ^ (s.1.memory.population + 1) := by rw [Nat.pow_succ, Nat.mul_comm]
    _ < way.length := hlong

end

/-- A send may be handed on more often than it could be unless a send comes about again. -/
theorem Machine.lt_resendLimit (m : Machine) :
    (m.room + 1) ^ (m.memory.population + 1) < m.resendLimit := by
  rw [resendLimit, Nat.one_shiftLeft, Nat.pow_mul]
  calc (m.room + 1) ^ (m.memory.population + 1)
      < (2 ^ (Nat.log2 (m.room + 1) + 1)) ^ (m.memory.population + 1) :=
        Nat.pow_lt_pow_left Nat.lt_log2_self (Nat.succ_ne_zero _)
    _ ≤ (2 ^ (Nat.log2 (m.room + 1) + 1)) ^ (m.memory.slots.size + 1) :=
        Nat.pow_le_pow_right (Nat.two_pow_pos _) (Nat.succ_le_succ m.memory.population_le)

/-- A send is handed on more often than there are ways to fill the active context with objects. One of
the sends was not understood, or an array that was spread out has come up among its own elements. -/
structure HandedRound (s : Machine × Sending) (selector : Value) (m' : Machine) : Prop where
  handed : ∃ way b, Handed way s (m', b) ∧ b.selector = selector ∧
    (s.1.room + 1) ^ (s.1.memory.population + 1) < way.length ∧
    ((∃ t ∈ way, ¬ Understood t) ∨ Coils s.1.memory fun v => ∃ t ∈ way, Spreads t v)

/-- A send does not run out of handings on for any other reason. -/
theorem handedRound_of_endless {a : Sending} {selector : Value} {m' : Machine}
    (h : Action.sendToClass a.selector a.argCount a.lookupClass m =
      .error (.endlessResend selector) m') : HandedRound (m, a) selector m' := by
  obtain ⟨way, b, hway, hlength, hb⟩ := Action.sendWithin_endless.1 h
  refine ⟨way, b, hway, hb, hlength ▸ m.lt_resendLimit, ?_⟩
  by_cases hunderstood : ∀ t ∈ way, Understood t
  · exact .inr (coils_of_handed hway hunderstood (hlength ▸ m.lt_resendLimit))
  · push Not at hunderstood
    exact .inl hunderstood

/-- The send of the instruction that is due is handed on too often. -/
def Machine.HandsRound (m : Machine) (selector : Value) (m' : Machine) : Prop :=
  ∃ instruction m₁ a, Action.fetchInstruction m = .ok instruction m₁ ∧ instruction.Sends m₁ a ∧
    HandedRound (m₁, a) selector m'

/-- A step that does not end in the ordinary way has a reason in the machine it started from. -/
theorem Action.step_founded {m m' : Machine} {f : Fault} (h : step m = .error f m') :
    f.Founded m.HandsRound m' := by
  have hfounded := step_honest.error h
  cases f with
  | endlessResend selector =>
    rw [step_eq] at h
    rcases bind_error.1 h with hfetch | ⟨instruction, m₁, hfetch, hrun⟩
    · exact (Raises.error (P := Fault.Founded fun _ _ => False) hfetch).elim
    · obtain ⟨a, sends⟩ := execute_endless hrun
      rw [execute_sends sends] at hrun
      exact ⟨instruction, m₁, a, hfetch, sends, handedRound_of_endless hrun⟩
  | _ => exact hfounded

/-! ### Runs -/

namespace Action

/-- A run takes so many steps and ends, or ends with the fault of the next step. -/
def Stops (m : Machine) (limit : Nat) : Prop :=
  ∃ k ≤ limit, (∃ reason m', runFor limit m = .ok reason m' ∧ steps k m = .ok () m') ∨
    ∃ m₁ f m', steps k m = .ok () m₁ ∧ step m₁ = .error f m' ∧ runFor limit m = .error f m' ∧
      f.Founded m₁.HandsRound m'

theorem runFor_stops (m : Machine) (limit : Nat) : Stops m limit := by
  induction limit generalizing m with
  | zero => exact ⟨0, Nat.le_refl 0, .inl ⟨_, m, rfl, rfl⟩⟩
  | succ limit ih =>
    by_cases hquit : m.quitting = true
    · refine ⟨0, Nat.zero_le _, .inl ⟨.quit, m, ?_, rfl⟩⟩
      rw [runFor, bind_of_ok (get_ok.2 ⟨rfl, rfl⟩), if_pos hquit]
      rfl
    · have hrun : runFor (limit + 1) m = (step >>= fun _ => runFor limit) m := by
        rw [runFor, bind_of_ok (get_ok.2 ⟨rfl, rfl⟩), if_neg hquit]
      cases hstep : step m with
      | error f m' =>
        refine ⟨0, Nat.zero_le _, .inr ⟨m, f, m', rfl, hstep, ?_, step_founded hstep⟩⟩
        rw [hrun, bind_of_error hstep]
      | ok u m₁ =>
        have hsteps : ∀ k, steps (k + 1) m = steps k m₁ := fun k => by rw [steps, bind_of_ok hstep]
        rw [bind_of_ok hstep] at hrun
        obtain ⟨k, hk, hends⟩ := ih m₁
        refine ⟨k + 1, Nat.succ_le_succ hk, ?_⟩
        rw [hsteps, hrun]
        exact hends

end Action

/-- A machine comes to the end of a run, of a walk and of handing a send on, unless what it follows
leads back to itself. A check of the machine's own fails only for what it checks. -/
structure Machine.Ends (m : Machine) : Prop where
  step : ∀ f m', Action.step m = .error f m' → f.Ordinary ∨
    (∃ v, f = .endlessChain v ∧
      (m'.memory.Circular Class.superclass v ∨ m'.memory.Circular Context.sender v)) ∨
    (∃ selector, f = .endlessResend selector ∧ m.HandsRound selector m') ∨
    ∃ p, f = .panic p ∧ p.Founded m'
  run : ∀ limit, Action.Stops m limit
  search : ∀ selector cls hops f, m.memory.population < hops →
    findMethodWithin m.memory selector m.specials.nil hops cls = .error f →
    f.Ordinary ∨ ∃ v, f = .endlessChain v ∧ m.memory.follow Class.superclass hops cls = some v ∧
      m.memory.Circular Class.superclass v
  ancestors : ∀ ancestor cls hops f m', m.memory.population < hops →
    Action.isAncestorWithin ancestor hops cls m = .error f m' →
    f.Ordinary ∨ ∃ v, f = .endlessChain v ∧ m.memory.follow Class.superclass hops cls = some v ∧
      m.memory.Circular Class.superclass v
  senders : ∀ target context hops f m', m.memory.population < hops →
    Action.senderPathWithin target hops context m = .error f m' →
    f.Ordinary ∨ ∃ v, f = .endlessChain v ∧ m.memory.follow Context.sender hops context = some v ∧
      m.memory.Circular Context.sender v
  resends : ∀ (a : Sending) limit selector m',
    (m.room + 1) ^ (m.memory.population + 1) < limit →
    Action.sendWithin limit a.selector a.argCount a.lookupClass m =
      .error (.endlessResend selector) m' →
    ∃ way b, Handed way (m, a) (m', b) ∧ way.length = limit ∧
      ((∃ t ∈ way, ¬ Understood t) ∨ Coils m.memory fun v => ∃ t ∈ way, Spreads t v)
  settled : ∀ (a : Sending) limit more,
    (∀ selector m', Action.sendWithin limit a.selector a.argCount a.lookupClass m ≠
      .error (.endlessResend selector) m') →
    Action.sendWithin (limit + more) a.selector a.argCount a.lookupClass m =
      Action.sendWithin limit a.selector a.argCount a.lookupClass m

/-- There is no other way not to end. -/
theorem Machine.ends (m : Machine) : m.Ends where
  step f m' h := by
    have hfounded := Action.step_founded h
    cases f with
    | endlessChain v => exact .inr (.inl ⟨v, rfl, hfounded⟩)
    | endlessResend selector => exact .inr (.inr (.inl ⟨selector, rfl, hfounded⟩))
    | panic p => exact .inr (.inr (.inr ⟨p, rfl, hfounded⟩))
    | _ => exact .inl trivial
  run := Action.runFor_stops m
  search _ _ _ _ hhops h := (findMethodWithin_error h).circular hhops
  ancestors _ _ _ _ _ hhops h := (Action.isAncestorWithin_error h).2.circular hhops
  senders _ _ _ _ _ hhops h := (Action.senderPathWithin_error h).2.circular hhops
  resends a limit selector m' hlimit h := by
    obtain ⟨way, b, hway, hlength, -⟩ := Action.sendWithin_endless.1 h
    refine ⟨way, b, hway, hlength, ?_⟩
    by_cases hunderstood : ∀ t ∈ way, Understood t
    · exact .inr (coils_of_handed hway hunderstood (hlength ▸ hlimit))
    · push Not at hunderstood
      exact .inl hunderstood
  settled _ _ _ := Action.sendWithin_more

/-! ### What never ends -/

/-- The fault that an action ends with. -/
def Action.faultOf? {α : Type} (x : Action α) (m : Machine) : Option Fault :=
  match x m with
  | .ok .. => none
  | .error f _ => some f

theorem Action.faultOf?_eq_some {α : Type} {x : Action α} {m : Machine} {f : Fault} :
    faultOf? x m = some f ↔ ∃ m', x m = .error f m' := by
  unfold faultOf?
  split <;> simp_all

/-- A class that is its own superclass, an array that is its own second element, and a context that
is its own sender. The context has a performer, the selector of a perform, the array and an instance of
the class on its stack, and sends the instance something that it does not understand. -/
def snareObjects : List Object :=
  let nil : Value := .ref 0 0
  let header args literals prim : Value :=
    .small (MethodHeader.encode args args literals false prim).word
  let pointers cls format fields := Object.ofPointers cls format (List.toArray fields)
  let spec : Value := .small (InstanceSpec.encode 0 0)
  [pointers nil .empty [], pointers nil .indexable (List.replicate 24 nil),
    pointers nil .fixed [.ref 2 0, .ref 3 0, spec],
    pointers nil .fixedIndexable [.small 0, .ref 4 0, nil], pointers nil .indexable [nil],
    pointers (.ref 2 0) .empty [], pointers nil .empty [], pointers nil .empty [],
    pointers nil .fixed [nil, .ref 9 0, spec],
    pointers nil .fixedIndexable [.small 1, .ref 10 0, .ref 6 0],
    pointers nil .indexable [.ref 11 0], .ofMethod nil #[header 2 0 84] #[120],
    pointers nil .indexable [.ref 6 0, .ref 12 0], pointers (.ref 8 0) .empty [],
    .ofMethod nil #[header 0 1 0, .ref 7 0] #[208],
    pointers nil .indexable ([.ref 15 0, .small 0, .small 0, .ref 14 0, nil, nil, .ref 13 0, .ref 6 0,
      .ref 12 0, .ref 5 0] ++ List.replicate 8 nil)]

/-- The context is active, and the perform has been looked up before. -/
def snare : Machine :=
  let nil : Value := .ref 0 0
  let m := Machine.create (Machine.filled (.empty .standard) snareObjects)
    { array := .ref 1 0, nil, falseObject := nil, trueObject := nil } {} default
  { m with
    registers := { m.registers with
      context := .ref 15 0
      home := .ref 15 0
      method := .ref 14 0
      literalCount := 1
      sp := 9 }
    methodCache := MethodCache.empty.install ⟨.ref 6 0, .ref 8 0, .ref 11 0, 84⟩ 0 0 }

/-- What is remembered is not searched for. -/
theorem Action.lookup_of_find {m : Machine} {selector cls : Value} {o : Object} {e : CacheEntry}
    (ho : m.memory.get? cls = some o)
    (hfind : m.methodCache.find selector (Dictionary.selectorHash m.memory selector) cls o.hash =
      some e) : lookup selector cls m =
        .ok (some e) { m with methodCache := { m.methodCache with hits := m.methodCache.hits + 1 } } := by
  unfold lookup cachedLookup
  simp only [ho, MethodCache.probe, hfind]

/-- A primitive that hands a send on does so for the method that it is tried for. -/
theorem Action.tryPrimitive_resend {p : Primitive} {n count : Nat} {m m' : Machine}
    {selector cls : Value} (hp : p ∈ Primitive.all) (hquick : ¬(256 ≤ p.number ∧ p.number < 520))
    (h : p.action n m = .ok (.resend selector count cls) m') :
    tryPrimitive p.number n m = .ok (.resend selector count cls) m' := by
  have hrun : (p.action n).run? m = .ok (some (.resend selector count cls)) m' := by
    rw [Attempt.run?, h]
  unfold tryPrimitive
  rw [if_neg hquick, Primitive.find?_of_mem hp]
  exact bind_of_ok hrun

/-- A send whose method is found with a primitive tries the primitive. -/
theorem Action.trySend_of {a : Sending} {m m₁ m' : Machine} {receiver : Value} {e : CacheEntry}
    {trial : Trial} (hreceiver : stackValue a.argCount m.sent = .ok receiver m.sent)
    (hfind : findSelector a.selector a.argCount a.lookupClass m.sent = .ok e m₁)
    (hprimitive : 0 < e.primitive) (hsp : m₁.registers.sp = m.sent.registers.sp)
    (htry : tryPrimitive e.primitive a.argCount
      { m₁ with lastPrimitiveSend := some (a.selector, a.lookupClass) } = .ok trial m') :
    trySend a m = .ok (receiver, e, a.argCount, trial) m' := by
  have hcount : modifyCounters (fun c => { c with sends := c.sends + 1 }) m = .ok () m.sent := rfl
  have hmodify : (modify fun m => { m with lastPrimitiveSend := some (a.selector, a.lookupClass) } :
    Action Unit) m₁ = .ok () { m₁ with lastPrimitiveSend := some (a.selector, a.lookupClass) } := rfl
  unfold trySend
  rw [bind_of_ok hcount, bind_of_ok hreceiver, bind_of_ok (registers_ok.2 ⟨rfl, rfl⟩),
    bind_of_ok hfind]
  simp only [hprimitive, if_true]
  rw [bind_of_ok hmodify, bind_of_ok (registers_ok.2 ⟨rfl, rfl⟩)]
  simp only [hsp, Nat.add_sub_cancel]
  rw [bind_of_ok htry]
  rfl

namespace Snare

/-- The perform of the selector of the perform itself, with the array. -/
def performing : Sending := ⟨.ref 6 0, 2, .ref 8 0⟩

/-- What is the same each time that the perform is handed on. -/
structure Caught (m : Machine) : Prop where
  memory : m.memory = snare.memory
  specials : m.specials = snare.specials
  registers : m.registers = (Action.popped snare 1).registers
  entries : m.methodCache.entries = snare.methodCache.entries

variable {m : Machine}

theorem Caught.congr {m' : Machine} (h : Caught m) (memory : m'.memory = m.memory)
    (specials : m'.specials = m.specials) (registers : m'.registers = m.registers)
    (entries : m'.methodCache.entries = m.methodCache.entries) : Caught m' :=
  ⟨memory.trans h.memory, specials.trans h.specials, registers.trans h.registers,
    entries.trans h.entries⟩

/-- The perform is found in the cache. -/
theorem Caught.lookup (h : Caught m) : ∃ m', Caught m' ∧
    Action.lookup (.ref 6 0) (.ref 8 0) m = .ok (some ⟨.ref 6 0, .ref 8 0, .ref 11 0, 84⟩) m' := by
  have hclass : (snare.memory.get? (.ref 8 0)).map Object.hash = some 0 := by decide +kernel
  have hselector : Dictionary.selectorHash snare.memory (.ref 6 0) = 0 := by decide +kernel
  have hfind : snare.methodCache.find (.ref 6 0) 0 (.ref 8 0) 0 =
    some ⟨.ref 6 0, .ref 8 0, .ref 11 0, 84⟩ := by decide +kernel
  obtain ⟨o, ho, hhash⟩ := Option.map_eq_some_iff.1 hclass
  have hentry : m.methodCache.entry = snare.methodCache.entry := by
    funext place
    rw [MethodCache.entry, MethodCache.entry, h.entries]
  rw [MethodCache.find, ← hentry, ← MethodCache.find] at hfind
  refine ⟨_, ?_, Action.lookup_of_find (o := o) (by rw [h.memory, ho]) ?_⟩
  · exact h.congr rfl rfl rfl rfl
  · rw [h.memory, hselector, hhash, hfind]

theorem Caught.cell (h : Caught m) {depth : Nat} {v : Value} (hdepth : depth ≤ 8)
    (hv : snare.memory.cell (.ref 15 0) (8 - depth) = some v) :
    Action.stackValue depth m = .ok v m := by
  refine Action.stackValue_ok.2 ⟨?_, ?_, rfl⟩
  · rw [h.registers]
    exact hdepth
  · rw [h.registers, h.memory]
    exact hv

/-- The method takes two arguments. -/
theorem Caught.arity (h : Caught m) : ∃ m', Caught m' ∧
    Attempt.checkArity (.ref 6 0) (.ref 8 0) 2 m = .ok () m' := by
  have hheader : MethodHeader.of snare.memory (.ref 11 0) = .ok (.encode 2 2 0 false 84) := by
    decide +kernel
  obtain ⟨m', h', hlookup⟩ := h.lookup
  refine ⟨m', h', ?_⟩
  unfold Attempt.checkArity
  rw [bind_of_ok (Attempt.lift_ok.2 hlookup)]
  refine (bind_of_ok (get_ok.2 ⟨rfl, rfl⟩)).trans ?_
  rw [h'.memory, hheader]
  rfl

/-- What was taken off the stack is put back. -/
theorem Caught.push (h : Caught m) {n : Nat} {v : Value} (hn : n < 8)
    (hv : snare.memory.cell (.ref 15 0) (8 - n) = some v) :
    (liftM (Action.push v) : Attempt Unit) (Action.popped m (n + 1)) =
      .ok () (Action.popped m n) := by
  refine Attempt.lift_ok.2 (Action.push_popped ?_ ?_)
  · rw [h.registers]
    exact hn
  · rw [h.registers, h.memory]
    exact hv

/-- Selector and array are taken off the stack and come back onto it. -/
theorem Caught.performs (h : Caught m) : ∃ m', Caught m' ∧
    Primitive.performWithArguments 2 m = .ok (.resend (.ref 6 0) 2 (.ref 8 0)) m' := by
  have hreceiver : Attempt.stackValue 2 m = .ok (.ref 13 0) m :=
    Attempt.lift_ok.2 (h.cell (by decide) (by decide +kernel))
  have hselector : Attempt.stackObject 1 m = .ok (.ref 6 0) m :=
    bind_of_ok (Attempt.lift_ok.2 (h.cell (v := .ref 6 0) (by decide) (by decide +kernel)))
  have harray : Attempt.stackObject 0 m = .ok (.ref 12 0) m :=
    bind_of_ok (Attempt.lift_ok.2 (h.cell (v := .ref 12 0) (by decide) (by decide +kernel)))
  have hobject {v o} (ho : snare.memory.get? v = some o) :
      (liftM (Action.object v) : Attempt Object) m = .ok o m :=
    Attempt.lift_ok.2 (Action.object_ok.2 ⟨h.memory ▸ ho, rfl⟩)
  have hcls : (snare.memory.get? (.ref 13 0)).map Object.cls = some (.ref 8 0) := by decide +kernel
  obtain ⟨o, ho, hcls⟩ := Option.map_eq_some_iff.1 hcls
  have hclass : (liftM (Action.classOf (.ref 13 0)) : Attempt Value) m = .ok (.ref 8 0) m :=
    Attempt.lift_ok.2 (Action.classOf_ok.2 ⟨.inr ⟨o, h.memory ▸ ho, hcls⟩, rfl⟩)
  have helements : snare.memory.get? (.ref 12 0) =
      some (.ofPointers (.ref 0 0) .indexable #[.ref 6 0, .ref 12 0]) := by decide +kernel
  have hsize : (snare.memory.get? (.ref 15 0)).map (fun o => o.pointers.size) = some 18 := by
    decide +kernel
  obtain ⟨c, hc, hsize⟩ := Option.map_eq_some_iff.1 hsize
  have hcontext : (liftM (Action.object m.registers.context) : Attempt Object) m = .ok c m := by
    rw [h.registers]
    exact hobject hc
  have hroom : m.registers.sp - 0 - 2 + 2 < c.pointers.size := by
    rw [h.registers, hsize]
    decide
  obtain ⟨m', h', harity⟩ := h.arity
  have hpop : (liftM (Action.popN 2) : Attempt Unit) m' = .ok () (Action.popped m' 2) :=
    Attempt.lift_ok.2 (Action.popN_ok.2 ⟨by rw [h'.registers]; decide, rfl⟩)
  have hpush : ([.ref 6 0, .ref 12 0].forM fun x => liftM (Action.push x) : Attempt Unit)
      (Action.popped m' 2) = .ok () m' :=
    (bind_of_ok (h'.push (by decide) (by decide +kernel))).trans
      (bind_of_ok (h'.push (by decide) (by decide +kernel)))
  refine ⟨m', h', ?_⟩
  unfold Primitive.performWithArguments Attempt.performWithArray
  rw [bind_of_ok hreceiver, bind_of_ok hclass, bind_of_ok hselector, bind_of_ok harray,
    bind_of_ok (hobject helements)]
  refine (bind_of_ok (Attempt.require_of rfl)).trans ?_
  refine (bind_of_ok (x := (liftM Action.registers : Attempt Registers)) rfl).trans ?_
  refine (bind_of_ok hcontext).trans ((bind_of_ok (Attempt.require_of hroom)).trans ?_)
  exact (bind_of_ok harity).trans ((bind_of_ok hpop).trans (bind_of_ok hpush))

/-- The perform finds itself again. -/
theorem Caught.handsOn (h : Caught m) : ∃ m', HandsOn (m, performing) (m', performing) ∧ Caught m' := by
  have hsent : Caught m.sent := h.congr rfl rfl rfl rfl
  obtain ⟨m₁, h₁, hlookup⟩ := hsent.lookup
  have htried : Caught { m₁ with
      lastPrimitiveSend := some (performing.selector, performing.lookupClass) } :=
    h₁.congr rfl rfl rfl rfl
  obtain ⟨m', h', hperform⟩ := htried.performs
  have hfind : Action.findSelector (.ref 6 0) 2 (.ref 8 0) m.sent =
      .ok ⟨.ref 6 0, .ref 8 0, .ref 11 0, 84⟩ m₁ := by
    unfold Action.findSelector
    rw [bind_of_ok hlookup]
    rfl
  have hprimitive := Action.tryPrimitive_resend (n := 2)
    (p := ⟨84, "perform:withArguments:", Primitive.performWithArguments⟩)
    (by simp [Primitive.all]) (by decide) hperform
  have hreceiver := hsent.cell (show 2 ≤ 8 by decide) (v := .ref 13 0) (by decide +kernel)
  have hsp : m₁.registers.sp = m.sent.registers.sp := by rw [h₁.registers, hsent.registers]
  exact ⟨m', ⟨_, _, _, Action.trySend_of (a := performing) hreceiver hfind (by decide) hsp hprimitive⟩, h'⟩

theorem Caught.handed (h : Caught m) (n : Nat) : ∃ way m', way.length = n ∧
    Handed way (m, performing) (m', performing) := by
  induction n generalizing m with
  | zero => exact ⟨[], m, rfl, .here⟩
  | succ n ih =>
    obtain ⟨m₁, hon, h₁⟩ := h.handsOn
    obtain ⟨way, m', hlength, hway⟩ := ih h₁
    exact ⟨(m, performing) :: way, m', by rw [List.length_cons, hlength], .on hon hway⟩

end Snare

/-- However long one waits, the search for the method, the walk to another context and the perform
have not come to an end. -/
theorem endless_snare :
    (∃ m', Action.step snare = .error (.endlessChain (.ref 2 0)) m') ∧
    (∀ hops, findMethodWithin snare.memory (.ref 7 0) snare.specials.nil hops (.ref 2 0) =
      .error (.endlessChain (.ref 2 0))) ∧
    (∀ hops, Action.senderPathWithin (.ref 13 0) hops snare.registers.context snare =
      .error (.endlessChain snare.registers.context) snare) ∧
    ∀ limit, ∃ m', Action.sendWithin limit (.ref 6 0) 2 (.ref 8 0) (Action.popped snare 1) =
      .error (.endlessResend (.ref 6 0)) m' := by
  refine ⟨Action.faultOf?_eq_some.1 (by decide +kernel), fun hops => ?_, fun hops => ?_, fun limit => ?_⟩
  · induction hops with
    | zero => rfl
    | succ hops ih =>
      have hnil : (.ref 2 0 : Value) ≠ snare.specials.nil := by decide
      have hdictionary : snare.memory.field .lookupStructure (.ref 2 0) Class.dictionary =
        .ok (.ref 3 0) := by decide +kernel
      have hnone : Dictionary.find snare.memory (.ref 3 0) (.ref 7 0) snare.specials.nil = .ok none := by
        decide +kernel
      have hsuper : snare.memory.field .lookupStructure (.ref 2 0) Class.superclass =
        .ok (.ref 2 0) := by decide +kernel
      rw [findMethodWithin, if_neg hnil]
      exact Checked.bind_error.2 (.inr ⟨_, hdictionary, Checked.bind_error.2 (.inr ⟨none, hnone,
        Checked.bind_error.2 (.inr ⟨_, hsuper, ih⟩)⟩)⟩)
  · have htarget : snare.registers.context ≠ .ref 13 0 := by decide
    have hnil : snare.registers.context ≠ snare.specials.nil := by decide
    induction hops with
    | zero =>
      rw [Action.senderPathWithin, if_neg htarget, bind_of_ok (Action.nil_ok.2 ⟨rfl, rfl⟩), if_neg hnil]
      rfl
    | succ hops ih =>
      have hsender : snare.memory.cell snare.registers.context Context.sender =
        some snare.registers.context := by decide +kernel
      rw [Action.senderPathWithin, if_neg htarget, bind_of_ok (Action.nil_ok.2 ⟨rfl, rfl⟩), if_neg hnil]
      exact bind_error.2 (.inr ⟨_, _, Action.fetch_ok.2 ⟨hsender, rfl⟩, bind_error.2 (.inl ih)⟩)
  · obtain ⟨way, m', hlength, hway⟩ :=
      Snare.Caught.handed (m := Action.popped snare 1) ⟨rfl, rfl, rfl, rfl⟩ limit
    exact ⟨m', Action.sendWithin_endless.2 ⟨way, _, hway, hlength, rfl⟩⟩

end Smalltalk
