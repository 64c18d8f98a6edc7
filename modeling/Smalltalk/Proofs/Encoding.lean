import Mathlib
import Smalltalk.Proofs.Loading

/-!
# Writing an image

A draft is a list of records that name each other by position. Writing lays them out one after the
other, turns positions into addresses and gives every record one of the three kinds of header. This
module reads the words back: the header and then every record comes out as it was written, at the
offset that the addresses were computed from.
-/

namespace Smalltalk.Image

open Checked

/-! ### Words and bytes -/

/-- The bytes of a word in stream order. -/
def ByteOrder.bytes : ByteOrder → UInt32 → List UInt8
  | big, w => bytesOfWord w
  | little, w => (bytesOfWord w).reverse

/-- Bits that do not overlap are added. -/
theorem shiftLeft_or {a b k : Nat} (h : b < 2 ^ k) : a <<< k ||| b = a * 2 ^ k + b := by
  rw [← Nat.shiftLeft_add_eq_or_of_lt h, Nat.shiftLeft_eq]

theorem toNat_wordOfBytes (a b c d : UInt8) :
    (wordOfBytes a b c d).toNat =
      a.toNat * 2 ^ 24 + (b.toNat * 2 ^ 16 + (c.toNat * 2 ^ 8 + d.toNat)) := by
  have ha := a.toNat_lt
  have hb := b.toNat_lt
  have hc := c.toNat_lt
  have hd := d.toNat_lt
  have hshift : ∀ (x : UInt8) (k : Nat), k ≤ 24 → x.toNat <<< k % 2 ^ 32 = x.toNat <<< k := by
    intro x k hk
    rw [Nat.shiftLeft_eq]
    refine Nat.mod_eq_of_lt ?_
    calc x.toNat * 2 ^ k < 2 ^ 8 * 2 ^ k := Nat.mul_lt_mul_of_pos_right x.toNat_lt (by positivity)
      _ ≤ 2 ^ 8 * 2 ^ 24 := Nat.mul_le_mul_left _ (Nat.pow_le_pow_right (by decide) hk)
  simp only [wordOfBytes, UInt32.toNat_or, UInt32.toNat_shiftLeft, UInt8.toNat_toUInt32]
  change a.toNat <<< 24 % 2 ^ 32 ||| b.toNat <<< 16 % 2 ^ 32 ||| c.toNat <<< 8 % 2 ^ 32 ||| d.toNat = _
  rw [hshift a 24 (by decide), hshift b 16 (by decide), hshift c 8 (by decide), Nat.or_assoc,
    Nat.or_assoc, shiftLeft_or (show d.toNat < 2 ^ 8 by omega),
    shiftLeft_or (show c.toNat * 2 ^ 8 + d.toNat < 2 ^ 16 by omega), shiftLeft_or (by omega)]

theorem wordOfBytes_bytesOfWord (w : UInt32) :
    wordOfBytes (w >>> 24).toUInt8 (w >>> 16).toUInt8 (w >>> 8).toUInt8 w.toUInt8 = w := by
  have hw := w.toNat_lt
  rw [← UInt32.toNat_inj, toNat_wordOfBytes]
  have h24 : (24 : UInt32).toNat % 32 = 24 := rfl
  have h16 : (16 : UInt32).toNat % 32 = 16 := rfl
  have h8 : (8 : UInt32).toNat % 32 = 8 := rfl
  simp only [UInt32.toNat_toUInt8, UInt32.toNat_shiftRight, h24, h16, h8,
    Nat.shiftRight_eq_div_pow]
  omega

variable (order : ByteOrder)

/-- A word is read back from its bytes. -/
theorem ByteOrder.read_bytes (w : UInt32) (rest : List UInt8) :
    order.read (order.bytes w ++ rest) = .ok (w, rest) := by
  cases order with
  | big => exact congrArg (fun x => Except.ok (x, rest)) (wordOfBytes_bytesOfWord w)
  | little => exact congrArg (fun x => Except.ok (x, rest)) (wordOfBytes_bytesOfWord w)

theorem ByteOrder.words_bytes (ws : List UInt32) : order.words (ws.flatMap order.bytes) = ws := by
  induction ws with
  | nil => rw [List.flatMap_nil, ByteOrder.words.eq_def]
  | cons w ws ih =>
    rw [List.flatMap_cons]
    conv_rhs => rw [← ih]
    cases order with
    | big => exact congrArg (fun x => x :: ByteOrder.words .big _) (wordOfBytes_bytesOfWord w)
    | little => exact congrArg (fun x => x :: ByteOrder.words .little _) (wordOfBytes_bytesOfWord w)

/-! ### Drafts -/

/-- What kind of header a record has, and its class: the number of a compact class or the position of
a record. -/
inductive HeadKind where
  | short (compact : Nat)
  | classed (cls : Nat)
  | sized (cls : Nat)
  deriving DecidableEq, Inhabited, Repr

/-- A field before addresses are known. -/
inductive DraftField where
  /-- The object of the record at a position. -/
  | ref (position : Nat)
  /-- A tagged integer. -/
  | int (n : Int)
  /-- A word that is taken as it is. -/
  | raw (word : UInt32)
  deriving DecidableEq, Inhabited, Repr

/-- A record before addresses are known. -/
structure Draft where
  kind : HeadKind
  formatCode : Nat
  hash : Nat
  body : List DraftField
  deriving DecidableEq, Inhabited, Repr

/-- An image before addresses are known. -/
structure ImageDraft where
  base : UInt32
  drafts : List Draft
  /-- The position of the special objects array. -/
  specials : Nat
  lastHash : UInt32
  windowSize : UInt32
  fullScreen : UInt32
  extraMemory : UInt32
  deriving DecidableEq, Inhabited, Repr

/-- How many header words precede the base header. -/
def HeadKind.extraWords : HeadKind → Nat
  | short _ => 0
  | classed _ => 1
  | sized _ => 2

/-- The words a record takes. -/
def Draft.size (d : Draft) : Nat := d.kind.extraWords + 1 + d.body.length

/-- Where the base headers stand when the first record starts at `offset`. -/
def offsetsFrom (offset : Nat) : List Draft → List Nat
  | [] => []
  | d :: ds => (offset + 4 * d.kind.extraWords) :: offsetsFrom (offset + 4 * d.size) ds

/-- The bytes that some records take. -/
def extent (ds : List Draft) : Nat := 4 * (ds.map Draft.size).sum

/-- The address of the record at a position. -/
def ImageDraft.address (p : ImageDraft) (position : Nat) : UInt32 :=
  UInt32.ofNat ((offsetsFrom 0 p.drafts)[position]?.getD 0) + p.base

/-- The word of a field, given the addresses of the records. -/
def DraftField.word (address : Nat → UInt32) : DraftField → UInt32
  | ref position => address position
  | int n => UInt32.ofBitVec (BitVec.ofInt 32 (2 * n + 1))
  | raw word => word

/-- A base header. -/
def baseHeader (size formatCode compact hash kind : Nat) : UInt32 :=
  UInt32.ofNat (hash <<< 17 ||| (compact <<< 12 ||| (formatCode <<< 8 ||| (size <<< 2 ||| kind))))

/-- The header words of a record. -/
def Draft.head (address : Nat → UInt32) (d : Draft) : List UInt32 :=
  let size := d.body.length + 1
  match d.kind with
  | .short compact => [baseHeader size d.formatCode compact d.hash 3]
  | .classed cls => [address cls ||| 1, baseHeader size d.formatCode 0 d.hash 1]
  | .sized cls => [UInt32.ofNat (size <<< 2), address cls, baseHeader 0 d.formatCode 0 d.hash 0]

/-- The words of a record. -/
def Draft.words (address : Nat → UInt32) (d : Draft) : List UInt32 :=
  d.head address ++ d.body.map (DraftField.word address)

/-- The header that an image gets in a byte order. -/
def ImageDraft.header (p : ImageDraft) (order : ByteOrder) : Header where
  headerSize := 64
  endOfMemory := UInt32.ofNat (extent p.drafts)
  baseAddress := p.base
  specialObjects := p.address p.specials
  lastHash := p.lastHash
  windowSize := p.windowSize
  fullScreen := p.fullScreen
  extraMemory := p.extraMemory
  swapped := order = .little

/-- The header words after the version, filled up to 64 bytes. -/
def ImageDraft.headerWords (p : ImageDraft) : List UInt32 :=
  [64, UInt32.ofNat (extent p.drafts), p.base, p.address p.specials, p.lastHash, p.windowSize,
    p.fullScreen, p.extraMemory] ++ List.replicate 7 0

/-- The words of the records. -/
def ImageDraft.recordWords (p : ImageDraft) : List UInt32 := p.drafts.flatMap (Draft.words p.address)

/-- The words of an image. -/
def ImageDraft.words (p : ImageDraft) : List UInt32 := magic :: (p.headerWords ++ p.recordWords)

/-- The bytes of an image. -/
def ImageDraft.encode (p : ImageDraft) (order : ByteOrder) : List UInt8 :=
  p.words.flatMap order.bytes

/-! ### Reading the header back -/

theorem readMagic_bytes (rest : List UInt8) :
    readMagic (order.bytes magic ++ rest) = .ok (order, rest) := by
  cases order with
  | big =>
    simp only [readMagic, ByteOrder.read_bytes]
    rfl
  | little =>
    have hbig : ByteOrder.big.read (ByteOrder.little.bytes magic ++ rest) =
        .ok (0x66190000, rest) := rfl
    simp only [readMagic, hbig, ByteOrder.read_bytes]
    rfl

theorem length_flatMap_bytes (ws : List UInt32) :
    (ws.flatMap order.bytes).length = 4 * ws.length := by
  induction ws with
  | nil => rfl
  | cons w ws ih =>
    have hw : (order.bytes w).length = 4 := by cases order <;> rfl
    rw [List.flatMap_cons, List.length_append, ih, hw, List.length_cons]
    omega

theorem readHeader_bytes (p : ImageDraft) (rest : List UInt8) :
    readHeader order (p.headerWords.flatMap order.bytes ++ rest) = .ok (p.header order, rest) := by
  have hzeros : ((List.replicate 7 (0 : UInt32)).flatMap order.bytes).length = 28 :=
    length_flatMap_bytes order _
  have hlong : ¬ ((List.replicate 7 (0 : UInt32)).flatMap order.bytes ++ rest).length < 28 := by
    rw [List.length_append, hzeros]
    omega
  have hskip : (64 : UInt32).toNat - headerBytes = 28 := rfl
  have hknown : ¬ (64 : UInt32).toNat < headerBytes := by decide
  simp only [readHeader, ImageDraft.headerWords, List.flatMap_append, List.flatMap_cons,
    List.flatMap_nil, List.append_assoc, List.nil_append, ByteOrder.read_bytes, bind, Except.bind,
    hskip, hknown, if_neg hlong, if_false, List.drop_left' hzeros]
  rfl

/-- In either byte order the stream gives the header and the words of the records. -/
theorem readStream_encode (p : ImageDraft) : readStream (p.encode order) = (do
    let records ← readRecords (UInt32.ofNat (extent p.drafts)).toNat 0 p.recordWords
    return (p.header order, records)) := by
  simp only [readStream, ImageDraft.encode, ImageDraft.words, List.flatMap_cons,
    List.flatMap_append, readMagic_bytes, readHeader_bytes, ByteOrder.words_bytes, bind, Except.bind]
  rfl

/-! ### Reading the records back -/

/-- Each part of a base header is read back. -/
theorem parts_baseHeader {size formatCode compact hash kind : Nat} (hsize : size < 64)
    (hformat : formatCode < 16) (hcompact : compact < 32) (hhash : hash < 4096)
    (hkind : kind < 4) {word : UInt32} (hword : word = baseHeader size formatCode compact hash kind) :
    word.toNat % 4 = kind ∧ (word >>> 2 &&& 63).toNat = size ∧
      (word >>> 8 &&& 15).toNat = formatCode ∧ (word >>> 12 &&& 31).toNat = compact ∧
      (word >>> 17 &&& 4095).toNat = hash := by
  have hnat : word.toNat =
      hash * 2 ^ 17 + (compact * 2 ^ 12 + (formatCode * 2 ^ 8 + (size * 2 ^ 2 + kind))) := by
    rw [hword, baseHeader, shiftLeft_or (show kind < 2 ^ 2 by omega),
      shiftLeft_or (show size * 2 ^ 2 + kind < 2 ^ 8 by omega),
      shiftLeft_or (show formatCode * 2 ^ 8 + (size * 2 ^ 2 + kind) < 2 ^ 12 by omega),
      shiftLeft_or (by omega)]
    refine UInt32.toNat_ofNat_of_lt' ?_
    change _ < 2 ^ 32
    omega
  rw [toNat_bits word 2 63 2 6 rfl rfl, toNat_bits word 8 15 8 4 rfl rfl,
    toNat_bits word 12 31 12 5 rfl rfl, toNat_bits word 17 4095 17 12 rfl rfl, hnat]
  refine ⟨?_, ?_, ?_, ?_, ?_⟩ <;> omega

theorem toNat_and_three (word : UInt32) : (word &&& 3).toNat = word.toNat % 4 := by
  rw [UInt32.toNat_and]
  exact Nat.and_two_pow_sub_one_eq_mod word.toNat 2

/-- The class of a record as its header words give it. -/
def Draft.classRef (address : Nat → UInt32) (d : Draft) : UInt32 :=
  match d.kind with
  | .short compact => UInt32.ofNat compact
  | .classed cls => address cls
  | .sized cls => address cls

/-- The record of a draft whose first header word stands at `offset`. -/
def Draft.record (address : Nat → UInt32) (offset : Nat) (d : Draft) : Record where
  offset := offset + 4 * d.kind.extraWords
  classRef := d.classRef address
  formatCode := d.formatCode
  hash := UInt16.ofNat d.hash
  words := d.body.map (DraftField.word address)

/-- Whether a record of so many fields may have a header of this kind. -/
def HeadKind.Admits (length : Nat) : HeadKind → Prop
  | short compact => 1 ≤ compact ∧ compact ≤ 31 ∧ length ≤ 62
  | classed _ => length ≤ 62
  | sized _ => True

instance (length : Nat) : (kind : HeadKind) → Decidable (kind.Admits length)
  | .short _ => inferInstanceAs (Decidable (_ ∧ _ ∧ _))
  | .classed _ => inferInstanceAs (Decidable (_ ≤ _))
  | .sized _ => isTrue trivial

/-- Whether the header words have room for what a draft says. -/
structure Draft.Headed (d : Draft) : Prop where
  format : d.formatCode < 16
  hash : d.hash < 4096
  kind : d.kind.Admits d.body.length

instance (d : Draft) : Decidable d.Headed :=
  decidable_of_iff (d.formatCode < 16 ∧ d.hash < 4096 ∧ d.kind.Admits d.body.length)
    ⟨fun ⟨hformat, hhash, hkind⟩ => ⟨hformat, hhash, hkind⟩, fun h => ⟨h.format, h.hash, h.kind⟩⟩

variable {address : Nat → UInt32} {d : Draft}

theorem record_of_parts {extra size : Nat} {cls base : UInt32} (hextra : extra = d.kind.extraWords)
    (hcls : cls = d.classRef address) (hformat : (base >>> 8 &&& 15).toNat = d.formatCode)
    (hhash : (base >>> 17 &&& 4095).toNat = d.hash) (offset : Nat) :
    (RecordHead.mk extra cls base size).record offset (d.body.map (DraftField.word address)) =
      d.record address offset := by
  simp only [RecordHead.record, Draft.record, hextra, hcls, hformat, Record.mk.injEq, true_and,
    and_true]
  rw [← UInt16.toNat_inj, UInt32.toNat_toUInt16, hhash, UInt16.toNat_ofNat']

theorem readHead_short (offset : Nat) (word : UInt32) (rest : List UInt32)
    (hkind : word.toNat % 4 = 3) (hcompact : word >>> 12 &&& 31 ≠ 0) :
    readHead offset word rest =
      .ok ⟨0, word >>> 12 &&& 31, word, (word >>> 2 &&& 63).toNat⟩ := by
  rw [← toNat_and_three] at hkind
  simp only [readHead, hkind, if_neg hcompact]

theorem readHead_classed (offset : Nat) (word base : UInt32) (rest : List UInt32)
    (hkind : word.toNat % 4 = 1) :
    readHead offset word (base :: rest) = .ok ⟨1, word - 1, base, (base >>> 2 &&& 63).toNat⟩ := by
  rw [← toNat_and_three] at hkind
  simp only [readHead, hkind]

theorem readHead_sized (offset : Nat) (word cls base : UInt32) (rest : List UInt32)
    (hkind : word.toNat % 4 = 0) :
    readHead offset word (cls :: base :: rest) = .ok ⟨2, cls, base, (word >>> 2).toNat⟩ := by
  rw [← toNat_and_three] at hkind
  simp only [readHead, hkind]

/-- An address is tagged as a class word and read back. -/
theorem class_tag {a : UInt32} (h : a.toNat % 4 = 0) :
    (a ||| 1).toNat % 4 = 1 ∧ (a ||| 1) - 1 = a := by
  have hlt := a.toNat_lt
  have hor : (a ||| 1).toNat = a.toNat + 1 := by
    have hshift : a.toNat = (a.toNat / 4) <<< 2 := by
      rw [Nat.shiftLeft_eq]
      omega
    rw [UInt32.toNat_or, hshift]
    exact (shiftLeft_or (show 1 < 2 ^ 2 by decide)).trans (by rw [Nat.shiftLeft_eq])
  refine ⟨by omega, ?_⟩
  rw [← UInt32.toNat_inj, UInt32.toNat_sub_of_le _ _ (by
    rw [UInt32.le_iff_toNat_le, hor]
    exact Nat.le_add_left 1 _), hor]
  rfl

/-- The header words of a draft are read back, and its fields follow them. -/
theorem readHead_words (hd : d.Headed) (haddress : ∀ i, (address i).toNat % 4 = 0)
    (hlength : 4 * (d.body.length + 1) < 0x100000000) (offset : Nat) (more : List UInt32) :
    ∃ word rest head, d.words address ++ more = word :: rest ∧ readHead offset word rest = .ok head ∧
      head.size = d.body.length + 1 ∧ head.extraWords = d.kind.extraWords ∧
      rest.drop head.extraWords = d.body.map (DraftField.word address) ++ more ∧
      head.record offset (d.body.map (DraftField.word address)) = d.record address offset := by
  have hadmits := hd.kind
  -- the base header is known by its parts only
  cases hkind : d.kind with
  | short compact =>
    rw [hkind] at hadmits
    obtain ⟨hpos, hle, hlen⟩ := hadmits
    have hwords : d.words address = baseHeader (d.body.length + 1) d.formatCode compact d.hash 3 ::
        d.body.map (DraftField.word address) := by
      simp only [Draft.words, Draft.head, hkind, List.cons_append, List.nil_append]
    generalize hbase : baseHeader (d.body.length + 1) d.formatCode compact d.hash 3 = base at hwords
    obtain ⟨htag, hsize, hformat, hcompact, hhash⟩ := parts_baseHeader (by omega) hd.format
      (by omega) hd.hash (by decide) hbase.symm
    have hcls : base >>> 12 &&& 31 = d.classRef address := by
      rw [Draft.classRef, hkind, ← UInt32.toNat_inj, hcompact, UInt32.toNat_ofNat']
      omega
    have hne : base >>> 12 &&& 31 ≠ 0 := by
      rw [Ne, ← UInt32.toNat_inj, hcompact]
      exact Nat.ne_of_gt hpos
    rw [hwords]
    refine ⟨_, _, _, rfl, readHead_short offset base _ htag hne, hsize, rfl, rfl, ?_⟩
    exact record_of_parts (by rw [hkind]; rfl) hcls hformat hhash offset
  | classed cls =>
    rw [hkind] at hadmits
    have hlen : d.body.length ≤ 62 := hadmits
    have hwords : d.words address = (address cls ||| 1) ::
        baseHeader (d.body.length + 1) d.formatCode 0 d.hash 1 ::
          d.body.map (DraftField.word address) := by
      simp only [Draft.words, Draft.head, hkind, List.cons_append, List.nil_append]
    generalize hbase : baseHeader (d.body.length + 1) d.formatCode 0 d.hash 1 = base at hwords
    obtain ⟨-, hsize, hformat, -, hhash⟩ := parts_baseHeader (by omega) hd.format (by decide) hd.hash
      (by decide) hbase.symm
    obtain ⟨htag, huntag⟩ := class_tag (haddress cls)
    have hcls : (address cls ||| 1) - 1 = d.classRef address := by
      rw [Draft.classRef, hkind, huntag]
    rw [hwords]
    refine ⟨_, _, _, rfl, readHead_classed offset _ base _ htag, hsize, rfl, rfl, ?_⟩
    exact record_of_parts (by rw [hkind]; rfl) hcls hformat hhash offset
  | sized cls =>
    have hwords : d.words address = UInt32.ofNat ((d.body.length + 1) <<< 2) :: address cls ::
        baseHeader 0 d.formatCode 0 d.hash 0 :: d.body.map (DraftField.word address) := by
      simp only [Draft.words, Draft.head, hkind, List.cons_append, List.nil_append]
    generalize hbase : baseHeader 0 d.formatCode 0 d.hash 0 = base at hwords
    generalize hword : UInt32.ofNat ((d.body.length + 1) <<< 2) = word at hwords
    obtain ⟨-, -, hformat, -, hhash⟩ := parts_baseHeader (by decide) hd.format (by decide) hd.hash
      (by decide) hbase.symm
    have hnat : word.toNat = (d.body.length + 1) * 4 := by
      rw [← hword, UInt32.toNat_ofNat', Nat.shiftLeft_eq]
      omega
    have hsize : (word >>> 2).toNat = d.body.length + 1 := by
      rw [UInt32.toNat_shiftRight, hnat, Nat.shiftRight_eq_div_pow]
      exact Nat.mul_div_cancel _ (by decide)
    have hcls : address cls = d.classRef address := by rw [Draft.classRef, hkind]
    rw [hwords]
    refine ⟨_, _, _, rfl, readHead_sized offset word _ base _ (by omega), hsize, rfl, rfl, ?_⟩
    exact record_of_parts (by rw [hkind]; rfl) hcls hformat hhash offset

/-- The records of drafts that stand one after the other from `offset` on. -/
def recordsFrom (address : Nat → UInt32) (offset : Nat) : List Draft → List Record
  | [] => []
  | d :: ds => d.record address offset :: recordsFrom address (offset + 4 * d.size) ds

theorem extent_cons (d : Draft) (ds : List Draft) : extent (d :: ds) = 4 * d.size + extent ds := by
  rw [extent, extent, List.map_cons, List.sum_cons, Nat.mul_add]

/-- All records are read back, each at its offset. -/
theorem readRecords_words (haddress : ∀ i, (address i).toNat % 4 = 0) {ds : List Draft} (offset : Nat)
    (hds : ∀ d ∈ ds, d.Headed) (hextent : extent ds < 0x100000000) :
    readRecords (offset + extent ds) offset (ds.flatMap (Draft.words address)) =
      .ok (recordsFrom address offset ds) := by
  induction ds generalizing offset with
  | nil => exact readRecords_ok.2 (.inl ⟨Nat.le_refl _, rfl⟩)
  | cons d ds ih =>
    rw [extent_cons] at hextent ⊢
    rw [Draft.size] at hextent
    obtain ⟨word, rest, head, hwords, hhead, hsize, hextra, hdrop, hrecord⟩ :=
      readHead_words (hds d List.mem_cons_self) haddress (by omega) offset
        (ds.flatMap (Draft.words address))
    have hlength : (d.body.map (DraftField.word address)).length = d.body.length := List.length_map _
    have hrest : rest.length - head.extraWords =
        d.body.length + (ds.flatMap (Draft.words address)).length := by
      rw [← List.length_drop, hdrop, List.length_append, hlength]
    have htail : rest.drop (head.extraWords + (head.size - 1)) =
        ds.flatMap (Draft.words address) := by
      rw [← List.drop_drop, hdrop, hsize]
      exact List.drop_left' hlength
    have hfields : (rest.drop head.extraWords).take (head.size - 1) =
        d.body.map (DraftField.word address) := by
      rw [hdrop, hsize]
      exact List.take_left' hlength
    refine readRecords_ok.2 (.inr ⟨word, rest, head, recordsFrom address (offset + 4 * d.size) ds, ?_,
      ?_, hhead, ?_, ?_, ?_, ?_⟩)
    · rw [Draft.size]
      omega
    · rw [List.flatMap_cons, hwords]
    · omega
    · omega
    · have hnext : offset + 4 * (head.extraWords + head.size) = offset + 4 * d.size := by
        rw [hextra, hsize, Draft.size]
        omega
      rw [htail, hnext, ← Nat.add_assoc]
      exact ih _ (fun e he => hds e (List.mem_cons_of_mem _ he)) (by omega)
    · rw [hfields, hrecord, recordsFrom]

/-! ### Where the records stand -/

theorem length_recordsFrom (offset : Nat) (ds : List Draft) :
    (recordsFrom address offset ds).length = ds.length := by
  induction ds generalizing offset with
  | nil => rfl
  | cons d ds ih => rw [recordsFrom, List.length_cons, List.length_cons, ih]

theorem getElem?_recordsFrom (offset i : Nat) (ds : List Draft) :
    (recordsFrom address offset ds)[i]? =
      ds[i]?.map fun d => d.record address (offset + extent (ds.take i)) := by
  induction ds generalizing offset i with
  | nil => rfl
  | cons d ds ih =>
    cases i with
    | zero => rfl
    | succ i =>
      rw [recordsFrom, List.getElem?_cons_succ, List.getElem?_cons_succ, ih, List.take_succ_cons,
        extent_cons, Nat.add_assoc]

theorem map_offset_recordsFrom (address : Nat → UInt32) (offset : Nat) (ds : List Draft) :
    (recordsFrom address offset ds).map Record.offset = offsetsFrom offset ds := by
  induction ds generalizing offset with
  | nil => rfl
  | cons d ds ih => rw [recordsFrom, List.map_cons, ih, offsetsFrom, Draft.record]

/-- Every record starts in the range that belongs to it. -/
theorem offset_bounds {offset x : Nat} {ds : List Draft} (h : x ∈ offsetsFrom offset ds) :
    offset ≤ x ∧ x < offset + extent ds := by
  induction ds generalizing offset with
  | nil => exact absurd h List.not_mem_nil
  | cons d ds ih =>
    rw [extent_cons, Draft.size]
    rcases List.mem_cons.1 h with rfl | h
    · omega
    · have := ih h
      rw [Draft.size] at this
      omega

theorem offsetsFrom_pairwise (offset : Nat) (ds : List Draft) :
    (offsetsFrom offset ds).Pairwise (· < ·) := by
  induction ds generalizing offset with
  | nil => exact List.Pairwise.nil
  | cons d ds ih =>
    refine List.Pairwise.cons (fun x hx => ?_) (ih _)
    have := (offset_bounds hx).1
    rw [Draft.size] at this
    omega

theorem offset_mod {offset x : Nat} {ds : List Draft} (h : x ∈ offsetsFrom offset ds)
    (hoffset : offset % 4 = 0) : x % 4 = 0 := by
  induction ds generalizing offset with
  | nil => exact absurd h List.not_mem_nil
  | cons d ds ih =>
    rcases List.mem_cons.1 h with rfl | h
    · omega
    · exact ih h (by omega)

variable {p : ImageDraft}

/-- The range of addresses that the records of an image have. -/
structure ImageDraft.Laid (p : ImageDraft) : Prop where
  aligned : p.base.toNat % 4 = 0
  /-- No address can be taken for the number of a compact class. -/
  low : 32 ≤ p.base.toNat
  high : p.base.toNat + extent p.drafts < 0x100000000

instance (p : ImageDraft) : Decidable p.Laid :=
  decidable_of_iff (p.base.toNat % 4 = 0 ∧ 32 ≤ p.base.toNat ∧
      p.base.toNat + extent p.drafts < 0x100000000)
    ⟨fun ⟨haligned, hlow, hhigh⟩ => ⟨haligned, hlow, hhigh⟩, fun h => ⟨h.aligned, h.low, h.high⟩⟩

theorem ImageDraft.Laid.address_mod (h : p.Laid) (i : Nat) : (p.address i).toNat % 4 = 0 := by
  have haligned := h.aligned
  have hoffset : ((offsetsFrom 0 p.drafts)[i]?.getD 0) % 4 = 0 := by
    cases hx : (offsetsFrom 0 p.drafts)[i]? with
    | none => rfl
    | some x => exact offset_mod (List.mem_of_getElem? hx) rfl
  rw [ImageDraft.address, UInt32.toNat_add, UInt32.toNat_ofNat']
  omega

theorem ImageDraft.Laid.toNat_address (h : p.Laid) {i x : Nat}
    (hx : (offsetsFrom 0 p.drafts)[i]? = some x) : (p.address i).toNat = p.base.toNat + x := by
  have hbounds := offset_bounds (List.mem_of_getElem? hx)
  have hhigh := h.high
  rw [ImageDraft.address, hx, UInt32.toNat_add, UInt32.toNat_ofNat', Option.getD_some]
  omega

/-- The records of an image. -/
def ImageDraft.records (p : ImageDraft) : List Record := recordsFrom p.address 0 p.drafts

theorem ImageDraft.length_records (p : ImageDraft) : p.records.length = p.drafts.length :=
  length_recordsFrom ..

theorem ImageDraft.getElem?_records (p : ImageDraft) (i : Nat) :
    p.records[i]? = p.drafts[i]?.map fun d => d.record p.address (extent (p.drafts.take i)) := by
  rw [ImageDraft.records, getElem?_recordsFrom, Nat.zero_add]

theorem ImageDraft.getElem?_offsets (p : ImageDraft) (i : Nat) :
    (offsetsFrom 0 p.drafts)[i]? = p.records[i]?.map Record.offset := by
  rw [← map_offset_recordsFrom p.address, List.getElem?_map, ImageDraft.records]

theorem ImageDraft.address_record (p : ImageDraft) {i : Nat} {record : Record}
    (h : p.records[i]? = some record) : record.address p.base = p.address i := by
  rw [ImageDraft.address, p.getElem?_offsets, h]
  rfl

/-- Different records have different addresses. -/
theorem ImageDraft.Laid.address_inj (h : p.Laid) {i j : Nat} (hi : i < p.drafts.length)
    (hj : j < p.drafts.length) : p.address i = p.address j ↔ i = j := by
  have hsome : ∀ {k}, k < p.drafts.length → ∃ x, (offsetsFrom 0 p.drafts)[k]? = some x := by
    intro k hk
    rw [← p.length_records] at hk
    exact ⟨p.records[k].offset, by rw [p.getElem?_offsets, List.getElem?_eq_getElem hk]; rfl⟩
  obtain ⟨x, hx⟩ := hsome hi
  obtain ⟨y, hy⟩ := hsome hj
  constructor
  · intro heq
    rw [← UInt32.toNat_inj, h.toNat_address hx, h.toNat_address hy, Nat.add_left_cancel_iff] at heq
    have hnodup : (offsetsFrom 0 p.drafts).Nodup :=
      (offsetsFrom_pairwise 0 p.drafts).imp Nat.ne_of_lt
    exact (List.getElem?_inj (List.getElem?_eq_some_iff.1 hx).1 hnodup).1 (by rw [hx, hy, heq])
  · exact fun heq => heq ▸ rfl

/-- In either byte order a written image gives its header and its records. -/
theorem ImageDraft.Laid.readStream (h : p.Laid) (hd : ∀ d ∈ p.drafts, d.Headed) :
    readStream (p.encode order) = .ok (p.header order, p.records) := by
  have hextent : (UInt32.ofNat (extent p.drafts)).toNat = extent p.drafts := by
    have := h.high
    rw [UInt32.toNat_ofNat']
    omega
  have hread := readRecords_words h.address_mod 0 hd (by have := h.high; omega)
  rw [Nat.zero_add] at hread
  rw [readStream_encode, hextent, ImageDraft.recordWords, hread]
  rfl

end Smalltalk.Image
