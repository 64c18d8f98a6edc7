import Mathlib
import Smalltalk.Proofs.Encoding

/-!
# Loading what was written

`object?` says what object a draft stands for, without addresses: its class by position, its fields as
values, the rest as words, bytes or a float. `load_encode` says that loading the written image gives
these objects. The argument follows the loader: distinct records have distinct addresses, so each
address resolves to its own position; with that every field and every class resolves as drafted, a
compact class through its table; so each record decodes to its draft's object.
-/

namespace Smalltalk.Image

open Checked

/-! ### What a draft stands for -/

/-- The value of a field; a word that is taken as it is has none. -/
def DraftField.value? : DraftField → Option Value
  | ref position => some (entry position)
  | int n => some (.small n)
  | raw _ => none

/-- The position that a field names. -/
def DraftField.position? : DraftField → Option Nat
  | ref position => some position
  | _ => none

/-- How many fields of a draft stand for values: all of them, the header and the literals it counts,
or none. -/
def Draft.valueCount (d : Draft) : Nat :=
  match Format.ofCode? d.formatCode, d.body with
  | some .words, _ => 0
  | some .bytes, _ => 0
  | some .method, .int n :: _ => (MethodHeader.mk n).literalCount + 1
  | _, body => body.length

/-- The raw part that words give an object. Of a byte object's last word as many bytes are unused as
the low bits of the format code say. -/
def rawPart (formatCode : Nat) (isFloat : Bool) (words : List UInt32) : Format → Body
  | .words =>
    match isFloat, words with
    | true, [high, low] => .float (high.toUInt64 <<< 32 ||| low.toUInt64)
    | _, _ => .words words.toArray
  | .bytes => .bytes ((words.flatMap bytesOfWord).rdrop (formatCode % 4)).toArray
  | .method => .bytes ((words.flatMap bytesOfWord).rdrop (formatCode % 4)).toArray
  | _ => .none

namespace ImageDraft

/-- Field `i` of the draft at a position. -/
def field? (p : ImageDraft) (position i : Nat) : Option DraftField :=
  p.drafts[position]?.bind fun d => d.body[i]?

/-- The position that field `i` of the draft at a position names. -/
def named? (p : ImageDraft) (position i : Nat) : Option Nat :=
  (p.field? position i).bind DraftField.position?

/-- The position of a record's class. A compact class is found through the table of compact classes,
which is one of the special objects. -/
def class? (p : ImageDraft) : HeadKind → Option Nat
  | .short compact => do
    let table ← p.named? p.specials Special.compactClasses
    p.named? table (compact - 1)
  | .classed cls => some cls
  | .sized cls => some cls

/-- The object that a draft stands for. -/
def object? (p : ImageDraft) (d : Draft) : Option Object := do
  let cls ← p.class? d.kind
  let format ← Format.ofCode? d.formatCode
  let values ← (d.body.take d.valueCount).mapM DraftField.value?
  let words := (d.body.drop d.valueCount).map (DraftField.word p.address)
  let isFloat := p.named? p.specials Special.classFloat = some cls
  return {
    cls := entry cls
    format
    hash := UInt16.ofNat d.hash
    pointers := values.toArray
    body := rawPart d.formatCode isFloat words format }

end ImageDraft

/-- Whether a field may stand where a value is looked for. -/
def DraftField.IsValue : DraftField → Prop
  | ref _ => True
  | int n => Value.InRange n
  | raw _ => False

instance : DecidablePred DraftField.IsValue
  | .ref _ => isTrue trivial
  | .int n => inferInstanceAs (Decidable (Value.InRange n))
  | .raw _ => isFalse id

/-- Whether a field leads to one of `count` records, if it leads anywhere. -/
def DraftField.Leads (count : Nat) : DraftField → Prop
  | ref i => i < count
  | int _ => True
  | raw _ => True

instance (count : Nat) : DecidablePred (DraftField.Leads count)
  | .ref i => inferInstanceAs (Decidable (i < count))
  | .int _ => isTrue trivial
  | .raw _ => isTrue trivial

/-- Whether fields start with a tagged header and are enough for the literals that it counts. -/
def HasLiterals : List DraftField → Prop
  | .int n :: rest => (MethodHeader.mk n).literalCount ≤ rest.length
  | .ref _ :: _ => False
  | .raw _ :: _ => False
  | [] => False

instance : DecidablePred HasLiterals
  | .int n :: rest => inferInstanceAs (Decidable ((MethodHeader.mk n).literalCount ≤ rest.length))
  | .ref _ :: _ => isFalse id
  | .raw _ :: _ => isFalse id
  | [] => isFalse id

/-- What a draft has to keep to in an image. -/
structure Draft.Writable (p : ImageDraft) (d : Draft) : Prop extends d.Headed where
  /-- References lead to records. -/
  leads : ∀ f ∈ d.body, f.Leads p.drafts.length
  /-- The class is a record, also where it is found through the table of compact classes. -/
  cls : ∃ c < p.drafts.length, p.class? d.kind = some c
  /-- What stands for values is a reference or an integer that has a representation. -/
  values : ∀ f ∈ d.body.take d.valueCount, f.IsValue
  /-- A method is long enough for its literals. -/
  method : Format.ofCode? d.formatCode = some .method → HasLiterals d.body

instance (p : ImageDraft) (d : Draft) : Decidable (d.Writable p) :=
  decidable_of_iff (d.Headed ∧ (∀ f ∈ d.body, f.Leads p.drafts.length) ∧
      (∃ c < p.drafts.length, p.class? d.kind = some c) ∧
      (∀ f ∈ d.body.take d.valueCount, f.IsValue) ∧
      (Format.ofCode? d.formatCode = some .method → HasLiterals d.body))
    ⟨fun ⟨hheaded, hleads, hcls, hvalues, hmethod⟩ => ⟨hheaded, hleads, hcls, hvalues, hmethod⟩,
      fun h => ⟨h.toHeaded, h.leads, h.cls, h.values, h.method⟩⟩

/-- What the draft of an image has to keep to. -/
structure ImageDraft.Writable (p : ImageDraft) : Prop extends p.Laid where
  drafts : ∀ d ∈ p.drafts, d.Writable p
  /-- The special objects array has pointer fields, up to the table of compact classes. -/
  specials : ∃ d, p.drafts[p.specials]? = some d ∧ d.formatCode ≤ 4 ∧ 29 ≤ d.body.length
  /-- The table of compact classes is long enough. -/
  compact : ∃ k d, p.named? p.specials Special.compactClasses = some k ∧ p.drafts[k]? = some d ∧
    compactClassCount ≤ d.body.length

/-! ### Resolving what was written -/

/-- An address that no other record is entered under keeps its entry. -/
theorem getElem?_foldl_enterAddress {base address : UInt32} {pairs : List (Record × Nat)}
    {map : Std.HashMap UInt32 Nat} (h : ∀ p ∈ pairs, p.1.address base ≠ address) :
    (pairs.foldl (enterAddress base) map)[address]? = map[address]? := by
  induction pairs generalizing map with
  | nil => rfl
  | cons p pairs ih =>
    rw [List.forall_mem_cons] at h
    rw [List.foldl_cons, ih h.2, getElem?_enterAddress, if_neg h.1]

theorem foldl_enterAddress_of_nodup {base : UInt32} {pairs : List (Record × Nat)}
    {map : Std.HashMap UInt32 Nat} (hnodup : (pairs.map fun p => p.1.address base).Nodup)
    {q : Record × Nat} (hq : q ∈ pairs) :
    (pairs.foldl (enterAddress base) map)[q.1.address base]? = some q.2 := by
  induction pairs generalizing map with
  | nil => exact absurd hq List.not_mem_nil
  | cons p pairs ih =>
    rw [List.map_cons, List.nodup_cons] at hnodup
    rcases List.mem_cons.1 hq with rfl | hq
    · rw [List.foldl_cons, getElem?_foldl_enterAddress, getElem?_enterAddress, if_pos rfl]
      exact fun p hp heq => hnodup.1 (List.mem_map.2 ⟨p, hp, heq⟩)
    · exact ih hnodup.2 hq

/-- With all addresses different, each leads to its own record. -/
theorem addresses_of_nodup {base : UInt32} {records : List Record}
    (hnodup : (records.map fun record => record.address base).Nodup) {i : Nat} {record : Record}
    (h : records[i]? = some record) : (addresses base records)[record.address base]? = some i := by
  have hpairs : (records.zipIdx.map fun p => p.1.address base).Nodup := by
    have hfst : (records.zipIdx.map fun p => p.1.address base) =
        (records.zipIdx.map Prod.fst).map fun record => record.address base := by
      rw [List.map_map]
      rfl
    rwa [hfst, List.zipIdx_map_fst]
  have hmem : (record, i) ∈ records.zipIdx := List.mem_zipIdx_iff_getElem?.2 h
  exact foldl_enterAddress_of_nodup hpairs hmem

variable {p : ImageDraft} {d : Draft} {m : Memory}

/-- The resolver that works on the records of a draft once they are registered. -/
def ImageDraft.resolver (p : ImageDraft) (m : Memory) : Resolver :=
  ⟨addresses p.base p.records, m.table⟩

theorem ImageDraft.map_address_records (p : ImageDraft) :
    (p.records.map fun record => record.address p.base) =
      (List.range p.drafts.length).map p.address := by
  refine List.ext_getElem ?_ fun i hi hi' => ?_
  · rw [List.length_map, List.length_map, List.length_range, p.length_records]
  · rw [List.length_map] at hi
    rw [List.getElem_map, List.getElem_map, List.getElem_range,
      p.address_record (List.getElem?_eq_getElem hi)]

theorem ImageDraft.Laid.index_address (h : p.Laid) {i : Nat} (hi : i < p.drafts.length) :
    (addresses p.base p.records)[p.address i]? = some i := by
  have hi' : i < p.records.length := by rwa [p.length_records]
  have hnodup : (p.records.map fun record => record.address p.base).Nodup := by
    rw [p.map_address_records]
    refine List.Nodup.map_on (fun i hi j hj heq => ?_) List.nodup_range
    exact (h.address_inj (List.mem_range.1 hi) (List.mem_range.1 hj)).1 heq
  rw [← p.address_record (List.getElem?_eq_getElem hi')]
  exact addresses_of_nodup hnodup (List.getElem?_eq_getElem hi')

theorem ImageDraft.Laid.value_address (h : p.Laid) (hrow : Rowed p.drafts.length m) {i : Nat}
    (hi : i < p.drafts.length) : (p.resolver m).value (p.address i) = .ok (entry i) :=
  Resolver.value_ok.2 ⟨i, h.index_address hi, hrow.getElem?_table.2 ⟨hi, rfl⟩⟩

theorem and_one_eq_one (word : UInt32) : word &&& 1 = 1 ↔ word.toNat % 2 = 1 := by
  rw [← UInt32.toNat_inj, UInt32.toNat_and]
  exact Iff.of_eq (congrArg (· = 1) (Nat.and_two_pow_sub_one_eq_mod word.toNat 1))

/-- A tagged integer is read back, and its tag is seen. -/
theorem toInt_tagged (address : Nat → UInt32) {n : Int} (hn : Value.InRange n) :
    (DraftField.word address (.int n)).toBitVec.toInt >>> (1 : Nat) = n := by
  have hlow := hn.1
  have hhigh := hn.2
  simp only [Value.smallMin, Value.smallMax] at hlow hhigh
  change (BitVec.ofInt 32 (2 * n + 1)).toInt >>> (1 : Nat) = n
  rw [BitVec.toInt_ofInt_eq_self (by decide) (by omega) (by omega), Int.shiftRight_eq_div_pow]
  omega

theorem odd_tagged (address : Nat → UInt32) (n : Int) :
    (DraftField.word address (.int n)).toNat % 2 = 1 := by
  change (BitVec.ofInt 32 (2 * n + 1)).toNat % 2 = 1
  rw [BitVec.toNat_ofInt]
  omega

theorem ImageDraft.Laid.pointer_word (h : p.Laid) (hrow : Rowed p.drafts.length m)
    {f : DraftField} {v : Value} (hf : f.IsValue) (hleads : f.Leads p.drafts.length)
    (hv : f.value? = some v) : (p.resolver m).pointer (f.word p.address) = .ok v := by
  cases f with
  | ref i =>
    obtain rfl := Option.some.inj hv
    have heven : ¬ p.address i &&& 1 = 1 := by
      have := h.address_mod i
      rw [and_one_eq_one]
      omega
    rw [Resolver.pointer, DraftField.word, if_neg heven]
    exact h.value_address hrow hleads
  | int n =>
    obtain rfl := Option.some.inj hv
    rw [Resolver.pointer, if_pos ((and_one_eq_one _).2 (odd_tagged _ n)), toInt_tagged _ hf]
  | raw w => exact absurd hf id

theorem DraftField.IsValue.exists_value {f : DraftField} (h : f.IsValue) :
    ∃ v, f.value? = some v := by
  cases f with
  | ref i => exact ⟨_, rfl⟩
  | int n => exact ⟨_, rfl⟩
  | raw w => exact absurd h id

/-- The words of fields that stand for values are resolved to these values. -/
theorem ImageDraft.Laid.pointers_words (h : p.Laid) (hrow : Rowed p.drafts.length m)
    {fields : List DraftField} (hvalues : ∀ f ∈ fields, f.IsValue)
    (hleads : ∀ f ∈ fields, f.Leads p.drafts.length) :
    ∃ vs, fields.mapM DraftField.value? = some vs ∧
      (p.resolver m).pointers (fields.map (DraftField.word p.address)) = .ok vs.toArray := by
  have hall : ∃ vs, fields.mapM DraftField.value? = some vs ∧ List.Forall₂
      (fun word v => (p.resolver m).pointer word = .ok v)
      (fields.map (DraftField.word p.address)) vs := by
    induction fields with
    | nil => exact ⟨[], rfl, .nil⟩
    | cons f fields ih =>
      rw [List.forall_mem_cons] at hvalues hleads
      obtain ⟨v, hv⟩ := hvalues.1.exists_value
      obtain ⟨vs, hvs, hrest⟩ := ih hvalues.2 hleads.2
      have hpointer := h.pointer_word hrow hvalues.1 hleads.1 hv
      exact ⟨v :: vs, by rw [List.mapM_cons, hv, hvs]; rfl, .cons hpointer hrest⟩
  obtain ⟨vs, hvs, hall⟩ := hall
  exact ⟨vs, hvs, Resolver.pointers_ok.2 hall⟩

/-! ### Decoding what was written -/

theorem decodeBytes_eq (words : List UInt32) (unused : Nat) :
    decodeBytes words unused = ((words.flatMap bytesOfWord).rdrop unused).toArray := by
  have hlength : (words.flatMap bytesOfWord).length = words.length * 4 := by
    rw [Nat.mul_comm]
    exact length_flatMap_bytes .big words
  rw [decodeBytes, List.rdrop, hlength]

theorem exists_format {code : Nat} (h : code < 16) : ∃ format, Format.ofCode? code = some format := by
  interval_cases code <;> exact ⟨_, rfl⟩

section Decode

variable {record : Record} {cls : Value} {isFloat : Bool} {r : Resolver} {vs : List Value}

theorem decodeContents_pointers {format : Format}
    (hformat : Format.ofCode? record.formatCode = some format) (hpointers : format.isPointers = true)
    (hvs : r.pointers record.words = .ok vs.toArray) :
    decodeContents r record cls isFloat = .ok ⟨cls, format, 0, vs.toArray, .none⟩ := by
  cases format with
  | words => exact absurd hpointers Bool.false_ne_true
  | bytes => exact absurd hpointers Bool.false_ne_true
  | method => exact absurd hpointers Bool.false_ne_true
  | _ =>
    simp only [decodeContents, hformat, hvs]
    rfl

theorem decodeContents_method {count : Nat} {header : UInt32} {rest : List UInt32}
    (hformat : Format.ofCode? record.formatCode = some .method)
    (hwords : record.words = header :: rest) (hcount : (header >>> 10 &&& 255).toNat + 1 = count)
    (hlength : count ≤ record.words.length)
    (hvs : r.pointers (record.words.take count) = .ok vs.toArray) :
    decodeContents r record cls isFloat = .ok ⟨cls, .method, 0, vs.toArray,
      .bytes (decodeBytes (record.words.drop count) (record.formatCode % 4))⟩ := by
  simp only [decodeContents, hformat, decodeMethod]
  rw [hwords] at hvs hlength ⊢
  simp only [hcount, if_neg (Nat.not_lt.2 hlength), hvs]
  rfl

theorem decodeContents_words (hformat : Format.ofCode? record.formatCode = some .words) :
    decodeContents r record cls isFloat =
      .ok ⟨cls, .words, 0, #[], rawPart record.formatCode isFloat record.words .words⟩ := by
  simp only [decodeContents, hformat, decodeWords, rawPart]
  cases isFloat with
  | false => rfl
  | true =>
    rcases record.words with _ | ⟨high, _ | ⟨low, _ | ⟨third, rest⟩⟩⟩ <;> rfl

end Decode

theorem HasLiterals.exists_header {fields : List DraftField} (h : HasLiterals fields) :
    ∃ n rest, fields = .int n :: rest ∧ (MethodHeader.mk n).literalCount ≤ rest.length := by
  cases fields with
  | nil => exact absurd h id
  | cons f rest =>
    cases f with
    | int n => exact ⟨n, rest, rfl, h⟩
    | ref i => exact absurd h id
    | raw w => exact absurd h id

/-- The contents of a draft's record. -/
theorem Draft.Writable.decodeContents (hd : d.Writable p) {format : Format}
    (hformat : Format.ofCode? d.formatCode = some format) {r : Resolver} {vs : List Value}
    (hvs : (d.body.take d.valueCount).mapM DraftField.value? = some vs)
    (hpointers : r.pointers ((d.body.take d.valueCount).map (DraftField.word p.address)) =
      .ok vs.toArray) (cls : Value) (isFloat : Bool) (offset : Nat) :
    decodeContents r (d.record p.address offset) cls isFloat = .ok ⟨cls, format, 0, vs.toArray,
      rawPart d.formatCode isFloat
        ((d.body.drop d.valueCount).map (DraftField.word p.address)) format⟩ := by
  cases format with
  | method =>
    obtain ⟨n, rest, hbody, hlength⟩ := (hd.method hformat).exists_header
    have hcount : d.valueCount = (MethodHeader.mk n).literalCount + 1 := by
      simp only [Draft.valueCount, hformat, hbody]
    have hn : Value.InRange n := hd.values (.int n) (by
      rw [hcount, hbody]
      exact List.mem_cons_self)
    have hheader : (DraftField.word p.address (.int n) >>> 10 &&& 255).toNat + 1 = d.valueCount := by
      rw [← literalCount_tagged, toInt_tagged p.address hn, hcount]
    have hwords : (d.record p.address offset).words =
        DraftField.word p.address (.int n) :: rest.map (DraftField.word p.address) := by
      rw [Draft.record, hbody, List.map_cons]
    have hlong : d.valueCount ≤ (d.record p.address offset).words.length := by
      rw [hwords, hcount, List.length_cons, List.length_map]
      omega
    rw [List.map_take] at hpointers
    rw [decodeContents_method hformat hwords hheader hlong hpointers, decodeBytes_eq, List.map_drop]
    rfl
  | bytes =>
    have hcount : d.valueCount = 0 := by simp only [Draft.valueCount, hformat]
    rw [hcount] at hvs ⊢
    obtain rfl : [] = vs := Option.some.inj hvs
    simp only [Image.decodeContents, Draft.record, hformat, decodeBytes_eq]
    rfl
  | words =>
    have hcount : d.valueCount = 0 := by simp only [Draft.valueCount, hformat]
    rw [hcount] at hvs ⊢
    obtain rfl : [] = vs := Option.some.inj hvs
    exact decodeContents_words hformat
  | _ =>
    have hcount : d.valueCount = d.body.length := by simp only [Draft.valueCount, hformat]
    rw [hcount, List.take_length] at hpointers
    exact decodeContents_pointers hformat rfl hpointers

/-- The record of a draft is decoded to the object that the draft stands for. -/
theorem Draft.Writable.decodeObject (hd : d.Writable p) (h : p.Laid)
    (hrow : Rowed p.drafts.length m) {c : Nat} (hcls : p.class? d.kind = some c) (offset : Nat) :
    ∃ o, p.object? d = some o ∧
      decodeObject (p.resolver m) (d.record p.address offset) (entry c)
        (p.named? p.specials Special.classFloat = some c) = .ok o := by
  obtain ⟨format, hformat⟩ := exists_format hd.format
  obtain ⟨vs, hvs, hpointers⟩ := h.pointers_words hrow hd.values fun f hf =>
    hd.leads f (List.mem_of_mem_take hf)
  refine ⟨_, ?_, bind_ok.2 ⟨_, hd.decodeContents hformat hvs hpointers .., rfl⟩⟩
  simp only [ImageDraft.object?, Draft.record, hcls, hformat, hvs, Option.bind_eq_bind,
    Option.bind_some, Option.pure_def]

/-! ### Filling in what was written -/

/-- Filling in succeeds when every class and every record can be resolved. -/
theorem fill_exists {r : Resolver} {compact : List UInt32} {floatClass : UInt32}
    {pairs : List (Record × Value)} (m : Memory)
    (h : ∀ q ∈ pairs, ∃ cls o, r.value (classAddress compact q.1.classRef) = .ok cls ∧
      decodeObject r q.1 cls (classAddress compact q.1.classRef = floatClass) = .ok o) :
    ∃ m', fill r compact floatClass pairs m = .ok m' := by
  induction pairs generalizing m with
  | nil => exact ⟨m, rfl⟩
  | cons q pairs ih =>
    rw [List.forall_mem_cons] at h
    obtain ⟨⟨cls, o, hcls, ho⟩, hrest⟩ := h
    obtain ⟨m', hm'⟩ := ih (m.replace q.2 o) hrest
    exact ⟨m', bind_ok.2 ⟨cls, hcls, bind_ok.2 ⟨o, ho, hm'⟩⟩⟩

theorem ImageDraft.named?_eq_some {position i k : Nat} :
    p.named? position i = some k ↔
      ∃ d, p.drafts[position]? = some d ∧ d.body[i]? = some (.ref k) := by
  simp only [ImageDraft.named?, ImageDraft.field?, Option.bind_eq_some_iff]
  constructor
  · rintro ⟨f, ⟨d, hd, hf⟩, hk⟩
    cases f with
    | ref j =>
      obtain rfl := Option.some.inj hk
      exact ⟨d, hd, hf⟩
    | int n => exact absurd hk (Option.some_ne_none k).symm
    | raw w => exact absurd hk (Option.some_ne_none k).symm
  · rintro ⟨d, hd, hf⟩
    exact ⟨.ref k, ⟨d, hd, hf⟩, rfl⟩

/-- The words of the table of compact classes that are in use. -/
def Draft.compactWords (address : Nat → UInt32) (table : Draft) : List UInt32 :=
  (table.body.map (DraftField.word address)).take compactClassCount

/-- An address is above all numbers of compact classes. -/
theorem ImageDraft.Laid.le_address (h : p.Laid) {i : Nat} (hi : i < p.drafts.length) :
    32 ≤ (p.address i).toNat := by
  have hi' : i < p.records.length := by rwa [p.length_records]
  have hoffset : (offsetsFrom 0 p.drafts)[i]? = some p.records[i].offset := by
    rw [p.getElem?_offsets, List.getElem?_eq_getElem hi']
    rfl
  have hlow := h.low
  rw [h.toNat_address hoffset]
  omega

/-- The class of a record is found at the address of its position, also through the table of compact
classes. -/
theorem Draft.Writable.classAddress (hd : d.Writable p) (h : p.Laid) {k c : Nat} {table : Draft}
    (hk : p.named? p.specials Special.compactClasses = some k) (htable : p.drafts[k]? = some table)
    (hcls : p.class? d.kind = some c) (hc : c < p.drafts.length) :
    classAddress (table.compactWords p.address) (d.classRef p.address) = p.address c := by
  have hadmits := hd.kind
  have hdirect : Image.classAddress (table.compactWords p.address) (p.address c) = p.address c := by
    have hlow := h.le_address hc
    rw [Image.classAddress, if_neg]
    rw [UInt32.lt_iff_toNat_lt]
    exact fun hlt => absurd hlt.2 (Nat.not_lt.2 hlow)
  cases hkind : d.kind with
  | short compact =>
    rw [hkind] at hcls hadmits
    obtain ⟨hpos, hle, -⟩ := hadmits
    simp only [ImageDraft.class?, hk, Option.bind_eq_bind, Option.bind_some] at hcls
    obtain ⟨table', htable', hentry⟩ := ImageDraft.named?_eq_some.1 hcls
    rw [htable] at htable'
    obtain rfl := Option.some.inj htable'
    have hnat : (UInt32.ofNat compact).toNat = compact := by
      rw [UInt32.toNat_ofNat']
      omega
    have hcompact : 1 ≤ UInt32.ofNat compact ∧ UInt32.ofNat compact < 32 := by
      rw [UInt32.le_iff_toNat_le, UInt32.lt_iff_toNat_lt, hnat]
      exact ⟨hpos, Nat.lt_succ_of_le hle⟩
    have hword : (table.compactWords p.address)[compact - 1]? = some (p.address c) := by
      rw [Draft.compactWords, List.getElem?_take_of_lt (by rw [compactClassCount]; omega), List.getElem?_map, hentry]
      rfl
    rw [Draft.classRef, hkind]
    simp only [Image.classAddress, if_pos hcompact, hnat, hword, Option.getD_some]
  | classed cls =>
    rw [hkind] at hcls
    obtain rfl := Option.some.inj hcls
    rw [Draft.classRef, hkind]
    exact hdirect
  | sized cls =>
    rw [hkind] at hcls
    obtain rfl := Option.some.inj hcls
    rw [Draft.classRef, hkind]
    exact hdirect

/-- All fields of a draft in a pointer format are looked upon as values. -/
theorem Draft.valueCount_of_le (hd : d.formatCode ≤ 4) : d.valueCount = d.body.length := by
  rw [Draft.valueCount]
  generalize d.formatCode = code at hd
  interval_cases code <;> rfl

theorem Draft.Writable.isValue (hd : d.Writable p) (hpointers : d.formatCode ≤ 4) {f : DraftField}
    (hf : f ∈ d.body) : f.IsValue := by
  refine hd.values f ?_
  rwa [Draft.valueCount_of_le hpointers, List.take_length]

/-- The word of a field is the address of a record only where the field names it. -/
theorem ImageDraft.Laid.address_eq_word (h : p.Laid) {c : Nat} (hc : c < p.drafts.length)
    {f : DraftField} (hf : f.IsValue) (hleads : f.Leads p.drafts.length) :
    p.address c = f.word p.address ↔ f = .ref c := by
  cases f with
  | ref j =>
    rw [DraftField.word, h.address_inj hc hleads, DraftField.ref.injEq, eq_comm]
  | int n =>
    have hmod := h.address_mod c
    have hodd := odd_tagged p.address n
    constructor
    · intro heq
      rw [heq] at hmod
      omega
    · intro heq
      cases heq
  | raw w => exact absurd hf id

variable {s table : Draft} {k : Nat}

/-- Every record of an image is decoded to the object that its draft stands for. -/
theorem ImageDraft.Writable.decodes (h : p.Writable) (hrow : Rowed p.drafts.length m)
    (hs : p.drafts[p.specials]? = some s) (hpointers : s.formatCode ≤ 4)
    (hk : p.named? p.specials Special.compactClasses = some k) (htable : p.drafts[k]? = some table)
    {f : DraftField} (hf : s.body[Special.classFloat]? = some f) {i : Nat}
    (hd : p.drafts[i]? = some d) :
    ∃ c o, p.object? d = some o ∧
      (p.resolver m).value (classAddress (table.compactWords p.address) (d.classRef p.address)) =
        .ok (entry c) ∧
      decodeObject (p.resolver m) (d.record p.address (extent (p.drafts.take i))) (entry c)
        (classAddress (table.compactWords p.address) (d.classRef p.address) = f.word p.address) =
          .ok o := by
  have hwritable := h.drafts d (List.mem_of_getElem? hd)
  have hswritable := h.drafts s (List.mem_of_getElem? hs)
  have hfmem := List.mem_of_getElem? hf
  obtain ⟨c, hc, hcls⟩ := hwritable.cls
  obtain ⟨o, hobject, hdecode⟩ := hwritable.decodeObject h.toLaid hrow hcls (extent (p.drafts.take i))
  have hfloat : p.named? p.specials Special.classFloat = some c ↔ p.address c = f.word p.address := by
    rw [h.address_eq_word hc (hswritable.isValue hpointers hfmem)
      (hswritable.leads f hfmem), ImageDraft.named?_eq_some]
    simp only [hs, Option.some.injEq, exists_eq_left', hf]
  refine ⟨c, o, hobject, ?_⟩
  rw [hwritable.classAddress h.toLaid hk htable hcls hc]
  refine ⟨h.value_address hrow hc, ?_⟩
  simpa only [hfloat] using hdecode

theorem ImageDraft.getElem?_record {i : Nat} (h : p.drafts[i]? = some d) :
    p.records[i]? = some (d.record p.address (extent (p.drafts.take i))) := by
  rw [p.getElem?_records, h]
  rfl

theorem ImageDraft.Laid.index_ok (h : p.Laid) {i : Nat} (hd : p.drafts[i]? = some d) :
    (p.resolver m).index (p.address i) = .ok i :=
  Resolver.index_ok.2 (h.index_address (List.getElem?_eq_some_iff.1 hd).1)

/-- The table of compact classes is found through the special objects. -/
theorem ImageDraft.Laid.compactClasses (h : p.Laid) (hs : p.drafts[p.specials]? = some s)
    (hk : p.named? p.specials Special.compactClasses = some k) (htable : p.drafts[k]? = some table)
    (hlength : compactClassCount ≤ table.body.length) (offset : Nat) :
    compactClasses (p.resolver m) p.records.toArray (s.record p.address offset) =
      .ok (table.compactWords p.address) := by
  obtain ⟨s', hs', hfield⟩ := ImageDraft.named?_eq_some.1 hk
  rw [hs] at hs'
  obtain rfl := Option.some.inj hs'
  have hword : specialWord (s.record p.address offset) Special.compactClasses = .ok (p.address k) := by
    rw [specialWord_ok, Draft.record, List.getElem?_map, hfield]
    rfl
  have hrecord := ImageDraft.getElem?_record htable
  have hlong : ¬ (table.body.map (DraftField.word p.address)).length < compactClassCount := by
    rw [List.length_map]
    omega
  refine bind_ok.2 ⟨_, hword, bind_ok.2 ⟨k, h.index_ok htable, ?_⟩⟩
  simp only [List.getElem?_toArray, hrecord, Draft.record, if_neg hlong]
  rfl

theorem length_le_extent (ds : List Draft) : 4 * ds.length ≤ extent ds := by
  induction ds with
  | nil => exact Nat.le_refl _
  | cons d ds ih =>
    rw [extent_cons, List.length_cons, Draft.size]
    omega

/-- All records are filled in, each with the object that its draft stands for. -/
theorem ImageDraft.Writable.fillAll (h : p.Writable) (hrow : Rowed p.drafts.length m)
    (order : ByteOrder) :
    ∃ m', fillAll (p.resolver m) p.records (p.header order) m = .ok (m', entry p.specials) ∧
      Rowed p.drafts.length m' ∧ ∀ (i : Nat) (d : Draft), p.drafts[i]? = some d →
        ∃ o, p.object? d = some o ∧ m'.get? (entry i) = some o := by
  obtain ⟨s, hs, hpointers, hslength⟩ := h.specials
  obtain ⟨k, table, hk, htable, htlength⟩ := h.compact
  have hlength : p.records.length ≤ 0x100000000 := by
    have hextent := length_le_extent p.drafts
    have hhigh := h.high
    rw [p.length_records]
    omega
  obtain ⟨f, hf⟩ : ∃ f, s.body[Special.classFloat]? = some f :=
    ⟨_, List.getElem?_eq_getElem (by simp only [Special.classFloat]; omega)⟩
  have hdecodes := fun (i : Nat) (d : Draft) (hd : p.drafts[i]? = some d) =>
    h.decodes hrow hs hpointers hk htable hf hd
  -- every record in the list is the record of some draft
  obtain ⟨m', hfill⟩ : ∃ m', fill (p.resolver m) (table.compactWords p.address) (f.word p.address)
      (p.records.zip m.table.toList) m = .ok m' := by
    refine fill_exists m fun q hq => ?_
    obtain ⟨i, hi⟩ := List.mem_iff_getElem?.1 (List.of_mem_zip hq).1
    rw [p.getElem?_records, Option.map_eq_some_iff] at hi
    obtain ⟨d, hd, hq⟩ := hi
    obtain ⟨c, o, -, hvalue, hdecode⟩ := hdecodes i d hd
    rw [← hq]
    exact ⟨entry c, o, hvalue, hdecode⟩
  rw [← p.length_records] at hrow
  obtain ⟨hrow', -, hfilled⟩ := hrow.fill hlength hfill
  rw [p.length_records] at hrow hrow'
  refine ⟨m', ?_, hrow', fun i d hd => ?_⟩
  · have hword : specialWord (s.record p.address (extent (p.drafts.take p.specials)))
        Special.classFloat = .ok (f.word p.address) := by
      rw [specialWord_ok, Draft.record, List.getElem?_map, hf]
      rfl
    refine bind_ok.2 ⟨p.specials, h.index_ok hs, ?_⟩
    simp only [ImageDraft.getElem?_record hs]
    refine bind_ok.2 ⟨_, h.compactClasses hs hk htable htlength _, bind_ok.2 ⟨_, hword,
      bind_ok.2 ⟨m', hfill, bind_ok.2 ⟨entry p.specials, ?_, rfl⟩⟩⟩⟩
    exact h.value_address hrow (List.getElem?_eq_some_iff.1 hs).1
  · obtain ⟨cls, o, hcls, hdecode, hget⟩ := hfilled i _ (ImageDraft.getElem?_record hd)
    obtain ⟨c, o', hobject, hvalue, hdecode'⟩ := hdecodes i d hd
    obtain rfl := Except.ok.inj (hcls.symm.trans hvalue)
    obtain rfl := Except.ok.inj (hdecode.symm.trans hdecode')
    exact ⟨o, hobject, hget⟩

/-! ### The round trip -/

theorem getElem?_mapM {fields : List DraftField} {vs : List Value}
    (h : fields.mapM DraftField.value? = some vs) (i : Nat) :
    vs[i]? = fields[i]?.bind DraftField.value? := by
  induction fields generalizing vs i with
  | nil =>
    obtain rfl : [] = vs := Option.some.inj h
    rfl
  | cons f fields ih =>
    rw [List.mapM_cons, Option.bind_eq_bind, Option.bind_eq_some_iff] at h
    obtain ⟨v, hv, h⟩ := h
    rw [Option.bind_eq_bind, Option.bind_eq_some_iff] at h
    obtain ⟨vs', hvs, h⟩ := h
    obtain rfl : v :: vs' = vs := Option.some.inj h
    cases i with
    | zero => exact hv.symm
    | succ i => exact ih hvs i

/-- An entry of the special objects array is the value of its field. -/
theorem ImageDraft.getElem?_pointers {o : Object} (hd : d.formatCode ≤ 4)
    (h : p.object? d = some o) (i : Nat) : o.pointers[i]? = d.body[i]?.bind DraftField.value? := by
  simp only [ImageDraft.object?, Option.bind_eq_bind, Option.bind_eq_some_iff, Option.pure_def] at h
  obtain ⟨cls, -, format, -, vs, hvs, h⟩ := h
  obtain rfl := Option.some.inj h
  rw [Draft.valueCount_of_le hd, List.take_length] at hvs
  rw [List.getElem?_toArray, getElem?_mapM hvs]

/-- What loading makes of the draft of an image. -/
structure ImageDraft.Realized (p : ImageDraft) (order : ByteOrder) (loaded : Loaded) : Prop where
  /-- The header is the one that was written. -/
  header : loaded.header = p.header order
  /-- There is one reference for each draft, in the order of the drafts, and no other. -/
  table : loaded.memory.table.toList = (List.range p.drafts.length).map entry
  tabled : loaded.memory.Tabled
  /-- Each leads to the object that the draft stands for. -/
  objects : ∀ (i : Nat) (d : Draft), p.drafts[i]? = some d →
    ∃ o, p.object? d = some o ∧ loaded.memory.get? (entry i) = some o
  /-- The special objects are those of the draft. -/
  array : loaded.specials.array = entry p.specials
  nil : (p.field? p.specials Special.nilObject).bind DraftField.value? = some loaded.specials.nil
  falseObject : (p.field? p.specials Special.falseObject).bind DraftField.value? =
    some loaded.specials.falseObject
  trueObject : (p.field? p.specials Special.trueObject).bind DraftField.value? =
    some loaded.specials.trueObject
  /-- The identity hashes go on from where they were. -/
  seed : loaded.memory.hashSeed = p.lastHash
  /-- Everything that was loaded is old. -/
  old : loaded.memory.oldBoundary = p.drafts.length

/-- The first entries of the special objects array are found. -/
theorem ImageDraft.Writable.specials_ok (h : p.Writable) {m : Memory}
    (hobjects : ∀ (i : Nat) (d : Draft), p.drafts[i]? = some d →
      ∃ o, p.object? d = some o ∧ m.get? (entry i) = some o) :
    ∃ specials, SpecialObjects.load m (entry p.specials) = .ok specials ∧
      specials.array = entry p.specials ∧
      (p.field? p.specials Special.nilObject).bind DraftField.value? = some specials.nil ∧
      (p.field? p.specials Special.falseObject).bind DraftField.value? =
        some specials.falseObject ∧
      (p.field? p.specials Special.trueObject).bind DraftField.value? =
        some specials.trueObject := by
  obtain ⟨s, hs, hpointers, hlength⟩ := h.specials
  obtain ⟨o, hobject, hget⟩ := hobjects p.specials s hs
  have hwritable := h.drafts s (List.mem_of_getElem? hs)
  have hentry : ∀ i < 29, ∃ v, m.field .specialObjects (entry p.specials) i = .ok v ∧
      (p.field? p.specials i).bind DraftField.value? = some v := by
    intro i hi
    have hi' : i < s.body.length := by omega
    obtain ⟨v, hv⟩ := (hwritable.isValue hpointers (List.getElem_mem hi')).exists_value
    refine ⟨v, ?_, ?_⟩
    · rw [Memory.field, hget]
      simp only [ImageDraft.getElem?_pointers hpointers hobject, List.getElem?_eq_getElem hi',
        Option.bind_some, hv]
    · rw [ImageDraft.field?, hs, Option.bind_some, List.getElem?_eq_getElem hi', Option.bind_some, hv]
  obtain ⟨nil, hnil, hnil'⟩ := hentry Special.nilObject (by decide)
  obtain ⟨falseObject, hfalse, hfalse'⟩ := hentry Special.falseObject (by decide)
  obtain ⟨trueObject, htrue, htrue'⟩ := hentry Special.trueObject (by decide)
  exact ⟨⟨entry p.specials, nil, falseObject, trueObject⟩, bind_ok.2 ⟨nil, hnil,
    bind_ok.2 ⟨falseObject, hfalse, bind_ok.2 ⟨trueObject, htrue, rfl⟩⟩⟩, rfl, hnil', hfalse', htrue'⟩

/-- An image with every kind of header and of contents. -/
def sample : ImageDraft where
  base := 0x100000
  specials := 3
  lastHash := 0x1234
  windowSize := 0x028001E0
  fullScreen := 0
  extraMemory := 0
  drafts := [
    { kind := .classed 0, formatCode := 1, hash := 11, body := [.ref 1, .int (-3)] },
    { kind := .short 1, formatCode := 0, hash := 12, body := [] },
    { kind := .classed 0, formatCode := 1, hash := 13, body := [] },
    { kind := .sized 0, formatCode := 2, hash := 14,
      body := ((List.replicate 30 (.ref 1)).set 9 (.ref 2)).set 28 (.ref 4) },
    { kind := .sized 0, formatCode := 2, hash := 15, body := (List.replicate 31 (.ref 1)).set 0 (.ref 0) },
    { kind := .classed 2, formatCode := 6, hash := 16, body := [.raw 0x400921FB, .raw 0x54442D18] },
    { kind := .short 1, formatCode := 9, hash := 17, body := [.raw 0x68692100] },
    { kind := .short 1, formatCode := 15, hash := 18,
      body := [.int 512, .int 7, .raw 0x7C000000] },
    { kind := .classed 0, formatCode := 6, hash := 19, body := [.raw 1, .raw 0xFFFFFFFF] }]

theorem writable_sample : sample.Writable where
  toLaid := by decide
  drafts := by decide
  specials := ⟨_, rfl, by decide, by decide⟩
  compact := ⟨4, _, by decide, rfl, by decide⟩

end Smalltalk.Image
