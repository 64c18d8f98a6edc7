import Mathlib
import Smalltalk.Proofs.Registration

/-!
# The spread of identity hashes

Every registration, also one that is refused, moves the identity hash sequence on by one step of a
linear congruential generator, and nothing else moves it. A hash is made of the low twelve bits of the
state, on which the generator is a generator of its own: 2048 steps of it add 2048 to the residue, so
that it comes back after 4096 steps and not before. Any 4096 hashes in a row are therefore all hashes
there are, whatever the seed was and whatever has happened to the memory in between.
-/

namespace Smalltalk.Memory

open Function

variable {m m' : Memory} {o : Object} {v : Value} {hashes window : List UInt16}

/-! ### The generator on twelve bits -/

/-- A step of the identity hash sequence, without a bound on the numbers. -/
def stride (n : Nat) : Nat := 13849 + 27181 * n

/-- The map `x ↦ a * x + b` on the residues that a hash is made of. -/
def affine (a b x : ZMod 4096) : ZMod 4096 := a * x + b

/-- The coefficients of the map `affine a b` after `2 ^ k` steps. -/
def doubled (a b : ZMod 4096) : Nat → ZMod 4096 × ZMod 4096
  | 0 => (a, b)
  | k + 1 => ((doubled a b k).1 * (doubled a b k).1, ((doubled a b k).1 + 1) * (doubled a b k).2)

theorem affine_iterate_two_pow (a b : ZMod 4096) (k : Nat) (x : ZMod 4096) :
    (affine a b)^[2 ^ k] x = affine (doubled a b k).1 (doubled a b k).2 x := by
  induction k generalizing x with
  | zero => rfl
  | succ k ih =>
    rw [pow_succ, mul_two, iterate_add_apply, ih, ih]
    simp only [affine, doubled]
    ring

/-- A step of the identity hash sequence, as the low twelve bits see it. -/
def turn : ZMod 4096 → ZMod 4096 := affine 27181 13849

theorem turn_iterate_half (x : ZMod 4096) : turn^[2 ^ 11] x = x + 2048 := by
  have hdoubled : doubled 27181 13849 11 = (1, 2048) := by decide +kernel
  rw [turn, affine_iterate_two_pow, hdoubled, affine, one_mul]

theorem turn_iterate_full (x : ZMod 4096) : turn^[2 ^ (11 + 1)] x = x := by
  have hzero : (2048 + 2048 : ZMod 4096) = 0 := by decide
  rw [pow_succ, mul_two, iterate_add_apply, turn_iterate_half, turn_iterate_half, add_assoc, hzero,
    add_zero]

/-- The residue comes back after 4096 steps and not before. -/
theorem minimalPeriod_turn (x : ZMod 4096) : minimalPeriod turn x = 4096 := by
  have : Fact (Nat.Prime 2) := ⟨Nat.prime_two⟩
  refine minimalPeriod_eq_prime_pow (p := 2) (k := 11) ?_ (turn_iterate_full x)
  intro hback
  have hhalf : x + 2048 = x := (turn_iterate_half x).symm.trans hback
  exact absurd (left_eq_add.1 hhalf.symm) (by decide)

/-- Fewer than 4096 steps apart, the residues differ. -/
theorem turn_iterate_injOn (x : ZMod 4096) : Set.InjOn (turn^[·] x) (Set.Iio 4096) := by
  have hinj := iterate_injOn_Iio_minimalPeriod (f := turn) (x := x)
  rwa [minimalPeriod_turn] at hinj

theorem cast_stride_iterate (k n : Nat) :
    ((stride^[k] n : Nat) : ZMod 4096) = turn^[k] (n : ZMod 4096) := by
  have hstep : Semiconj (Nat.cast : Nat → ZMod 4096) stride turn := by
    intro n
    simp only [stride, turn, affine, Nat.cast_add, Nat.cast_mul, Nat.cast_ofNat]
    ring
  exact hstep.iterate_right k n

/-! ### What a registration hands out -/

/-- The identity hash that the next registration gives to its object. -/
def nextHash (m : Memory) : UInt16 := seedHash (nextSeed m.hashSeed)

/-- The part of a state of the sequence that a hash is made of. -/
def residue (seed : UInt32) : ZMod 4096 := (seed.toNat : ZMod 4096)

/-- The 32-bit product wraps around at a multiple of 4096. -/
theorem residue_nextSeed (seed : UInt32) : residue (nextSeed seed) = turn (residue seed) := by
  have hwrap : (nextSeed seed).toNat = stride seed.toNat % 2 ^ 32 := by
    simp [nextSeed, stride, UInt32.toNat_add, UInt32.toNat_mul]
  have hmod : stride seed.toNat % 2 ^ 32 % 4096 = stride seed.toNat % 4096 :=
    Nat.mod_mod_of_dvd _ (by decide)
  calc residue (nextSeed seed)
      = ((stride seed.toNat % 2 ^ 32 : Nat) : ZMod 4096) := by rw [residue, hwrap]
    _ = ((stride seed.toNat : Nat) : ZMod 4096) := (ZMod.natCast_eq_natCast_iff' ..).2 hmod
    _ = turn (residue seed) := cast_stride_iterate 1 seed.toNat

theorem toNat_seedHash (seed : UInt32) : (seedHash seed).toNat = (residue seed).val := by
  have hmask : (seed &&& 0xFFF).toNat = seed.toNat % 4096 := by
    rw [UInt32.toNat_and]
    exact Nat.and_two_pow_sub_one_eq_mod seed.toNat 12
  rw [seedHash, UInt32.toNat_toUInt16, hmask, residue, ZMod.val_natCast]
  omega

theorem toNat_nextHash (m : Memory) : m.nextHash.toNat = (turn (residue m.hashSeed)).val := by
  rw [nextHash, toNat_seedHash, residue_nextSeed]

/-- A registration that succeeds enters its object under the next hash. -/
theorem hash_of_register (h : register o m = .ok v m') (hplaceable : m.Placeable) :
    (m'.get? v).map Object.hash = some m.nextHash := by
  obtain ⟨rfl, rfl⟩ := registerHashed_ok h
  have hroom : (m.setHashSeed (nextSeed m.hashSeed)).readied.Placeable := by
    rwa [Placeable, readied_slots, readied_free]
  exact congrArg (Option.map Object.hash) ((get?_place hroom _).trans (if_pos rfl))

/-! ### Nothing else moves the sequence -/

/-- The hashes that an operation hands out. -/
def Operation.hands : Operation → Memory → List UInt16
  | .register _, m => [m.nextHash]
  | _, _ => []

theorem hashSeed_place (m : Memory) (o : Object) : (m.place o).2.hashSeed = m.hashSeed := by
  simp only [place]
  split <;> rfl

theorem hashSeed_register (o : Object) (s : Account) :
    (s.register (registerHashed o)).2.hashSeed = s.2.hashSeed := by
  rcases s.register_cases o with hrun | hrun
  · rw [hrun]
  · rw [hrun, hashSeed_place, readied_frame]

/-- An operation that does not restart the sequence moves it on by the hashes that it hands out. -/
theorem Operation.hashSeed_perform (op : Operation) (hop : ∀ seed, op ≠ .setHashSeed seed) (n : Nat)
    (m : Memory) : (op.perform (n, m)).2.hashSeed = nextSeed^[(op.hands m).length] m.hashSeed := by
  cases op with
  | register o => exact hashSeed_register _ (n, m.setHashSeed (nextSeed m.hashSeed))
  | registerHashed o => exact hashSeed_register o (n, m)
  | write v i x =>
    simp only [perform, setField]
    rw [modify_frame]
    rfl
  | become source target twoWay =>
    simp only [perform, Memory.become]
    cases Renaming.ofLists source target twoWay <;> rfl
  | reclaim roots scope =>
    simp only [perform]
    rw [reclaim_frame]
    rfl
  | grow =>
    simp only [perform, attempted_grow]
    split
    · split <;> rfl
    · rfl
  | setHashSeed seed => exact absurd rfl (hop seed)
  | indexOf v =>
    simp only [perform, Memory.indexOf]
    split
    · rfl
    · split <;> rfl
  | enumerate start cls =>
    simp only [perform, Memory.enumerate]
    split <;> rfl
  | pin | releasePins | markOldBoundary => rfl

/-- A stretch of the life of a memory, with the hashes that its registrations hand out. -/
inductive Course (m : Memory) : List UInt16 → Memory → Prop where
  | refl : Course m [] m
  | perform {m' : Memory} {hashes : List UInt16} (h : Course m hashes m') (n : Nat)
      (op : Operation) (hop : ∀ seed, op ≠ .setHashSeed seed) :
      Course m (hashes ++ op.hands m') (op.perform (n, m')).2
  | modify {m' : Memory} {hashes : List UInt16} (h : Course m hashes m') (v : Value)
      (f : Object → Object) : Course m hashes (m'.modify v f)

namespace Course

theorem hashSeed_eq (h : Course m hashes m') :
    m'.hashSeed = nextSeed^[hashes.length] m.hashSeed := by
  induction h with
  | refl => rfl
  | perform h n op hop ih =>
    rw [op.hashSeed_perform hop, ih, ← iterate_add_apply, List.length_append, Nat.add_comm]
  | modify h v f ih => rwa [modify_frame]

theorem residue_eq (h : Course m hashes m') :
    residue m'.hashSeed = turn^[hashes.length] (residue m.hashSeed) := by
  have hstep : Semiconj residue nextSeed turn := residue_nextSeed
  rw [h.hashSeed_eq]
  exact hstep.iterate_right hashes.length m.hashSeed

/-- The hashes that are handed out are those of the generator, one after the other. -/
theorem map_toNat (h : Course m hashes m') : hashes.map UInt16.toNat =
    (List.range hashes.length).map fun k => (turn^[k + 1] (residue m.hashSeed)).val := by
  induction h with
  | refl => rfl
  | modify h v f ih => exact ih
  | @perform m' hashes h n op hop ih =>
    cases op with
    | register o =>
      have hnext : m'.nextHash.toNat = (turn^[hashes.length + 1] (residue m.hashSeed)).val := by
        rw [toNat_nextHash, h.residue_eq, iterate_succ_apply']
      simp only [Operation.hands, List.map_append, List.map_singleton, ih, hnext,
        List.length_append, List.length_singleton, List.range_succ]
    | _ => simpa only [Operation.hands, List.append_nil] using ih

theorem getElem_toNat (h : Course m hashes m') (k : Nat) (hk : k < hashes.length) :
    hashes[k].toNat = (turn^[k + 1] (residue m.hashSeed)).val := by
  have hk' := List.getElem_map UInt16.toNat (l := hashes) (i := k) (h := by rwa [List.length_map])
  rw [← hk', List.getElem_of_eq h.map_toNat, List.getElem_map, List.getElem_range]

/-- A window of the hashes starts somewhere on the cycle and follows it. -/
theorem exists_window (h : Course m hashes m') (hwindow : window <:+: hashes) :
    ∃ x, window.map UInt16.toNat = (List.range window.length).map fun k => (turn^[k] x).val := by
  obtain ⟨before, after, rfl⟩ := hwindow
  refine ⟨turn^[before.length + 1] (residue m.hashSeed), ?_⟩
  have hsplit := h.map_toNat
  simp only [List.append_assoc, List.map_append, List.length_append, List.range_add] at hsplit
  have htail := (List.append_inj hsplit (by simp)).2
  have hmiddle := (List.append_inj htail (by simp)).1
  rw [hmiddle, List.map_map]
  refine List.map_congr_left fun k _ => ?_
  have hsum : before.length + k + 1 = k + (before.length + 1) := by omega
  rw [comp_apply, hsum, iterate_add_apply]

theorem nodup_map_toNat (h : Course m hashes m') (hwindow : window <:+: hashes)
    (hlength : window.length ≤ 4096) : (window.map UInt16.toNat).Nodup := by
  obtain ⟨x, hx⟩ := h.exists_window hwindow
  rw [hx]
  refine List.nodup_range.map_on fun i hi j hj hij => ?_
  have hlt : ∀ k ∈ List.range window.length, k < 4096 := fun k hk =>
    (List.mem_range.1 hk).trans_le hlength
  exact turn_iterate_injOn x (hlt i hi) (hlt j hj) (ZMod.val_injective 4096 hij)

theorem lt_of_mem_window (h : Course m hashes m') (hwindow : window <:+: hashes) {n : Nat}
    (hn : n ∈ window.map UInt16.toNat) : n < 4096 := by
  obtain ⟨x, hx⟩ := h.exists_window hwindow
  rw [hx] at hn
  obtain ⟨k, -, rfl⟩ := List.mem_map.1 hn
  exact ZMod.val_lt (turn^[k] x)

/-- Twice an object is registered, where a full table refuses it, and then everything is freed. -/
theorem exists_rounds (m : Memory) (o : Object) (rounds : Nat) :
    ∃ hashes m', Course m hashes m' ∧ hashes.length = 2 * rounds := by
  induction rounds with
  | zero => exact ⟨[], m, .refl, rfl⟩
  | succ rounds ih =>
    obtain ⟨hashes, m', h, hlength⟩ := ih
    have hfirst := h.perform 0 (.register o) (by simp)
    have hsecond := hfirst.perform 0 (.register o) (by simp)
    refine ⟨_, _, hsecond.perform 0 (.reclaim [] .full) (by simp), ?_⟩
    simp only [Operation.hands, List.length_append, List.length_singleton, List.length_nil, hlength]
    omega

end Course

/-- A list of 4096 different numbers below 4096 has them all. -/
theorem perm_range_of_nodup {numbers : List Nat} (hnodup : numbers.Nodup)
    (hlength : numbers.length = 4096) (hbound : ∀ n ∈ numbers, n < 4096) :
    numbers.Perm (List.range 4096) := by
  have hsubset : numbers ⊆ List.range 4096 := fun n hn => List.mem_range.2 (hbound n hn)
  refine (List.subperm_of_subset hnodup hsubset).perm_of_length_le ?_
  rw [List.length_range, hlength]

/-- The hashes in unbounded arithmetic. -/
theorem val_turn_iterate (k : Nat) (seed : UInt32) :
    (turn^[k] (residue seed)).val = stride^[k] (seed.toNat % 4096) % 4096 := by
  rw [← ZMod.val_natCast, cast_stride_iterate, ZMod.natCast_mod, residue]

/-- Whatever has happened to a memory, the hash that is handed out after `k` others is told by the
low twelve bits of the seed and by `k`, it is the one that the next object is entered under, and any
4096 hashes in a row are all there are, each once. -/
theorem hashes_spread (h : Course m hashes m') :
    (∀ k (hk : k < hashes.length),
      hashes[k].toNat = stride^[k + 1] (m.hashSeed.toNat % 4096) % 4096) ∧
    (∀ o v m'', register o m' = .ok v m'' → m'.Placeable → (m''.get? v).map (·.hash.toNat) =
      some (stride^[hashes.length + 1] (m.hashSeed.toNat % 4096) % 4096)) ∧
    ∀ window, window <:+: hashes → window.length = 4096 →
      window.Nodup ∧ (window.map UInt16.toNat).Perm (List.range 4096) := by
  refine ⟨fun k hk => ?_, fun o v m'' hrun hplaceable => ?_, fun window hwindow hlength => ?_⟩
  · rw [h.getElem_toNat k hk, val_turn_iterate]
  · have hhash := congrArg (Option.map UInt16.toNat) (hash_of_register hrun hplaceable)
    rw [Option.map_map, Option.map_some, toNat_nextHash, h.residue_eq, ← iterate_succ_apply' turn,
      val_turn_iterate] at hhash
    exact hhash
  · have hnodup := h.nodup_map_toNat hwindow hlength.le
    exact ⟨hnodup.of_map, perm_range_of_nodup hnodup (by rwa [List.length_map])
      fun n hn => h.lt_of_mem_window hwindow hn⟩

/-- A memory with room for one object, in which every second registration is refused. -/
theorem hashes_spread_rounds : ∃ hashes m', Course (empty single) hashes m' ∧
    hashes.length = 4096 ∧ (hashes.map UInt16.toNat).Perm (List.range 4096) := by
  obtain ⟨hashes, m', h, hlength⟩ := Course.exists_rounds (empty single) default 2048
  have hspread := hashes_spread h
  exact ⟨hashes, m', h, hlength, (hspread.2.2 hashes List.infix_rfl hlength).2⟩

end Smalltalk.Memory
