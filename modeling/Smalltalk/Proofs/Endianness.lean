import Mathlib
import Smalltalk.Proofs.RoundTrip

/-!
# Both byte orders say the same

The byte order of a stream is told by its first word and then holds for all others. Two streams that
have the same words, each in its own order, are read side by side: every reading takes a whole word
from both, and what is skipped of the header is a whole number of words, so at every moment the same
words are ahead of both, or both readings have failed in the same way. This does not ask what the
words mean. It holds for streams that end too early and for records that contradict each other, just
as for images.
-/

namespace Smalltalk.Image

open Checked

variable {order : ByteOrder} {ws : List UInt32}

namespace ByteOrder

/-- The bytes of words in stream order. -/
def serialize (order : ByteOrder) (ws : List UInt32) : List UInt8 := ws.flatMap order.bytes

theorem serialize_cons (order : ByteOrder) (w : UInt32) (ws : List UInt32) :
    order.serialize (w :: ws) = order.bytes w ++ order.serialize ws := List.flatMap_cons ..

theorem length_bytes (order : ByteOrder) (w : UInt32) : (order.bytes w).length = 4 := by
  cases order <;> rfl

theorem length_serialize (order : ByteOrder) (ws : List UInt32) :
    (order.serialize ws).length = 4 * ws.length := by
  induction ws with
  | nil => rfl
  | cons w ws ih =>
    rw [serialize_cons, List.length_append, length_bytes, ih, List.length_cons]
    omega

/-- Leaving out the bytes of whole words leaves out words. -/
theorem drop_serialize (order : ByteOrder) (ws : List UInt32) (n : Nat) :
    (order.serialize ws).drop (4 * n) = order.serialize (ws.drop n) := by
  induction n generalizing ws with
  | zero => rfl
  | succ n ih =>
    cases ws with
    | nil => exact List.drop_nil
    | cons w ws =>
      rw [serialize_cons, List.drop_succ_cons, ← ih, Nat.mul_succ, Nat.add_comm, ← List.drop_drop,
        List.drop_left' (order.length_bytes w)]

end ByteOrder

/-! ### Reading side by side -/

section Abreast

variable {α β : Type} {R : α → α → Prop} {Q : β → β → Prop}
  {x y : Except ImageFault (α × List UInt8)}

/-- Two readings that went alike, the first of a stream in the order `big` and the second of one in
`order`: both failed in the same way, or the answers correspond and the same words are ahead. -/
inductive Abreast (order : ByteOrder) (R : α → α → Prop) :
    Except ImageFault (α × List UInt8) → Except ImageFault (α × List UInt8) → Prop
  | fault (e : ImageFault) : Abreast order R (.error e) (.error e)
  | ahead {a b : α} (ws : List UInt32) (h : R a b) :
      Abreast order R (.ok (a, ByteOrder.big.serialize ws)) (.ok (b, order.serialize ws))

/-- Readings that go on alike from alike readings. -/
theorem Abreast.bind {f g : α × List UInt8 → Except ImageFault (β × List UInt8)}
    (h : Abreast order R x y)
    (hfg : ∀ a b ws, R a b →
      Abreast order Q (f (a, ByteOrder.big.serialize ws)) (g (b, order.serialize ws))) :
    Abreast order Q (x >>= f) (y >>= g) := by
  cases h with
  | fault e => exact .fault e
  | ahead ws h => exact hfg _ _ ws h

theorem Abreast.mono {S : α → α → Prop} (h : Abreast order R x y) (hRS : ∀ a b, R a b → S a b) :
    Abreast order S x y := by
  cases h with
  | fault e => exact .fault e
  | ahead ws h => exact .ahead ws (hRS _ _ h)

end Abreast

/-- The next word is the same in both streams. -/
theorem abreast_first (order : ByteOrder) (ws : List UInt32) :
    Abreast order (fun a b => a = b ∧ ws.head? = some a)
      (ByteOrder.big.read (ByteOrder.big.serialize ws)) (order.read (order.serialize ws)) := by
  cases ws with
  | nil => cases order <;> exact .fault .endOfStream
  | cons w ws =>
    rw [ByteOrder.serialize_cons, ByteOrder.serialize_cons, ByteOrder.read_bytes,
      ByteOrder.read_bytes]
    exact .ahead ws ⟨rfl, rfl⟩

theorem abreast_read (order : ByteOrder) (ws : List UInt32) :
    Abreast order Eq (ByteOrder.big.read (ByteOrder.big.serialize ws))
      (order.read (order.serialize ws)) :=
  (abreast_first order ws).mono fun _ _ h => h.1

/-! ### The header and the records -/

/-- The header as it is read from a stream in the given order. -/
def Header.inOrder (order : ByteOrder) (header : Header) : Header :=
  { header with swapped := order = .little }

/-- A header whose size is a whole number of words is read alike in both orders. -/
theorem abreast_readHeader (order : ByteOrder)
    (haligned : ∀ size ∈ ws.head?, size.toNat % 4 = 0) :
    Abreast order (fun big other => other = big.inOrder order)
      (readHeader .big (ByteOrder.big.serialize ws)) (readHeader order (order.serialize ws)) := by
  refine (abreast_first order ws).bind ?_
  rintro size _ ws₁ ⟨rfl, hsize⟩
  refine (abreast_read order ws₁).bind ?_
  rintro endOfMemory _ ws₂ rfl
  refine (abreast_read order ws₂).bind ?_
  rintro baseAddress _ ws₃ rfl
  refine (abreast_read order ws₃).bind ?_
  rintro specialObjects _ ws₄ rfl
  refine (abreast_read order ws₄).bind ?_
  rintro lastHash _ ws₅ rfl
  refine (abreast_read order ws₅).bind ?_
  rintro windowSize _ ws₆ rfl
  refine (abreast_read order ws₆).bind ?_
  rintro fullScreen _ ws₇ rfl
  refine (abreast_read order ws₇).bind ?_
  rintro extraMemory _ ws₈ rfl
  dsimp only
  split
  · exact .fault _
  · -- nine words are known, and so what is skipped is a whole number of words too
    rename_i hlong
    obtain ⟨n, hn⟩ : ∃ n, size.toNat - headerBytes = 4 * n := by
      have := haligned size hsize
      rw [headerBytes] at hlong ⊢
      exact ⟨(size.toNat - 36) / 4, by omega⟩
    rw [hn, ByteOrder.length_serialize, ByteOrder.length_serialize, ByteOrder.drop_serialize,
      ByteOrder.drop_serialize]
    dsimp only [bind, Except.bind, pure, Except.pure]
    split
    · exact .fault _
    · exact .ahead _ rfl

/-- The same header and records, or the same failure, in both orders. -/
theorem readStream_serialize (order : ByteOrder)
    (haligned : ∀ size ∈ ws.head?, size.toNat % 4 = 0) :
    readStream (order.serialize (magic :: ws)) =
      (readStream (ByteOrder.big.serialize (magic :: ws))).map
        fun (header, records) => (header.inOrder order, records) := by
  have habreast := abreast_readHeader order haligned
  simp only [readStream, ByteOrder.serialize_cons, readMagic_bytes]
  dsimp only [bind, Except.bind]
  generalize readHeader .big (ByteOrder.big.serialize ws) = big at habreast ⊢
  generalize readHeader order (order.serialize ws) = other at habreast ⊢
  cases habreast with
  | fault e => rfl
  | @ahead big other rest heq =>
    subst heq
    dsimp only [ByteOrder.serialize]
    rw [ByteOrder.words_bytes, ByteOrder.words_bytes]
    have hend : (big.inOrder order).endOfMemory = big.endOfMemory := rfl
    rw [hend]
    cases readRecords big.endOfMemory.toNat 0 rest with
    | error e => rfl
    | ok records => rfl

/-! ### Loading -/

/-- What is loaded from a stream in the given order. -/
def Loaded.inOrder (order : ByteOrder) (loaded : Loaded) : Loaded :=
  { loaded with header := loaded.header.inOrder order }

/-- The byte order plays no part in making the objects. -/
theorem install_inOrder (order : ByteOrder) (records : List Record) (header : Header)
    (settings : TableSettings) : install records (header.inOrder order) settings =
      (install records header settings).map (Loaded.inOrder order) := by
  unfold install
  cases reserve records (Memory.empty settings) with
  | error e m => rfl
  | ok values m =>
    dsimp only
    have hbase : (header.inOrder order).baseAddress = header.baseAddress := rfl
    have hfill : ∀ r : Resolver, fillAll r records (header.inOrder order) m =
        fillAll r records header m := fun _ => rfl
    rw [hbase, hfill]
    cases fillAll _ records header m with
    | error e => rfl
    | ok filled =>
      obtain ⟨memory, array⟩ := filled
      dsimp only [Except.mapError, bind, Except.bind]
      cases SpecialObjects.load memory array with
      | error e => rfl
      | ok specials => rfl

/-- A stream is loaded alike in both byte orders: it fails in the same way, or gives the same objects
under a header that tells the order. -/
theorem load_either_order (order : ByteOrder) (ws : List UInt32) (settings : TableSettings)
    (hmagic : ws.head? = some magic) (haligned : ∀ size ∈ ws[1]?, size.toNat % 4 = 0) :
    load (order.serialize ws) settings =
      (load (ByteOrder.big.serialize ws) settings).map (Loaded.inOrder order) := by
  obtain ⟨ws, rfl⟩ := List.head?_eq_some_iff.1 hmagic
  have hstream := readStream_serialize order fun size hsize =>
    haligned size (by rwa [List.getElem?_cons_succ, ← List.head?_eq_getElem?])
  rw [load, load, hstream]
  cases readStream (ByteOrder.big.serialize (magic :: ws)) with
  | error e => rfl
  | ok stream => exact install_inOrder order stream.2 stream.1 settings

/-- A header with a word more than is known, and a free block behind it. -/
def stub : List UInt32 := [magic, 40, 8, 0, 0, 0, 0, 0, 0, 7, 2]

/-- An image with every kind of contents, and a stream that is refused. -/
theorem load_either_order_sample :
    (sample.words.head? = some magic ∧ ∀ size ∈ sample.words[1]?, size.toNat % 4 = 0) ∧
    load (ByteOrder.little.serialize sample.words) {} =
      (load (ByteOrder.big.serialize sample.words) {}).map (Loaded.inOrder .little) ∧
    load (ByteOrder.big.serialize stub) {} = .error (.image (.freeBlock 0)) ∧
    load (ByteOrder.little.serialize stub) {} = .error (.image (.freeBlock 0)) := by
  have hwords : sample.words.head? = some magic ∧
      ∀ size ∈ sample.words[1]?, size.toNat % 4 = 0 := by
    refine ⟨rfl, fun size hsize => ?_⟩
    obtain rfl : 64 = size := Option.some.inj hsize
    rfl
  have hrecords : readRecords 8 0 [2] = .error (.freeBlock 0) := by
    rw [readRecords]
    rfl
  have hstream : readStream (ByteOrder.big.serialize stub) = .error (.freeBlock 0) := by
    refine bind_error.2 (.inr ⟨_, rfl, bind_error.2 (.inr ⟨_, rfl, ?_⟩)⟩)
    exact bind_error.2 (.inl hrecords)
  have hload : load (ByteOrder.big.serialize stub) {} = .error (.image (.freeBlock 0)) := by
    rw [load, hstream]
    rfl
  have hstub : ∀ size ∈ stub[1]?, size.toNat % 4 = 0 := by
    intro size hsize
    obtain rfl : 40 = size := Option.some.inj hsize
    rfl
  refine ⟨hwords, load_either_order .little _ {} hwords.1 hwords.2, hload, ?_⟩
  rw [load_either_order .little stub {} rfl hstub, hload]
  rfl

end Smalltalk.Image
