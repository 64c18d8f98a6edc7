import Smalltalk.Proofs.Refusal

/-!
# Declining primitives

Whenever a numbered primitive declines, its attempt can be counted as undone. Most primitives look at
their operands and then answer; the others are taken one by one.
-/

namespace Smalltalk.Primitive

open Attempt Smalltalk.Action Machine Outcome

variable {n : Nat}

theorem integerOp_yields {op : Int → Int → Option Int} : Yields Undone (integerOp op n) :=
  .bind stackInteger_stays fun _ => .bind stackInteger_stays fun _ =>
    .bind .ofOption fun _ => answer_certain.yields

theorem integerComparison_yields {op : Int → Int → Bool} : Yields Undone (integerComparison op n) :=
  .bind stackInteger_stays fun _ => .bind stackInteger_stays fun _ => answerTruth_certain.yields

theorem bitOp_yields {op : Nat → Nat → Nat} : Yields Undone (bitOp op n) :=
  .bind stackPositive32_stays fun _ => .bind stackPositive32_stays fun _ =>
    .certain newPositive32_yields fun _ => answer_certain

theorem bitShift_yields : Yields Undone (bitShift n) :=
  .bind stackPositive32_stays fun _ => .bind stackInteger_stays fun _ =>
    .bind .ofOption fun _ => .certain newPositive32_yields fun _ => answer_certain

theorem point_yields : Yields Undone (point n) :=
  .bind stackValue_stays fun _ => .bind stackValue_stays fun _ =>
    .certain .lift fun _ => answer_certain

theorem floatOp_yields {op : UInt64 → UInt64 → Option UInt64} : Yields Undone (floatOp op n) :=
  .bind stackFloat_stays fun _ => .bind stackFloat_stays fun _ => .bind .ofOption fun _ =>
    .certain .lift fun _ => answer_certain

theorem floatComparison_yields {op : UInt64 → UInt64 → Bool} : Yields Undone (floatComparison op n) :=
  .bind stackFloat_stays fun _ => .bind stackFloat_stays fun _ => answerTruth_certain.yields

theorem asFloat_yields : Yields Undone (asFloat n) :=
  .bind stackInteger_stays fun _ => .certain .lift fun _ => answer_certain

theorem truncated_yields : Yields Undone (truncated n) :=
  .bind stackFloat_stays fun _ => .bind .require fun _ => answer_certain.yields

theorem logarithm_yields : Yields Undone (logarithm n) :=
  .bind stackFloat_stays fun _ => .certain .lift fun _ => answer_certain

theorem size_yields : Yields Undone (size n) :=
  .bind (.lift stackValue_within) fun _ => .bind (.lift indexableSize_within) fun _ =>
    .bind .ofOption fun _ => .certain newPositive32_yields fun _ => answer_certain

theorem replaceElements_yields : Yields Undone (replaceElements n) := by
  refine .bind stackObject_stays fun dest => .bind stackInteger_stays fun _ => ?_
  refine .bind stackInteger_stays fun _ => .bind stackObject_stays fun source => ?_
  refine .bind stackInteger_stays fun _ => .bind natural_stays fun count => ?_
  refine .bind natural_stays fun destPos => .bind natural_stays fun sourcePos => ?_
  refine .bind (.lift object_within) fun destObject => ?_
  refine .bind (.lift object_within) fun sourceObject => ?_
  refine .ite ?_ (.ite ?_ (.ite ?_ (.bind .decline fun _ => answer_certain.yields)))
  · refine .bind (.lift fixedFields_within) fun _ => .bind (.lift fixedFields_within) fun _ => ?_
    refine .bind .ofOption fun _ => .bind .ofOption fun _ => ?_
    exact .certain .lift fun _ => answer_certain
  · refine .bind .ofOption fun _ => .bind .ofOption fun _ => ?_
    exact .certain .lift fun _ => answer_certain
  · refine .bind .ofOption fun _ => .bind .ofOption fun _ => ?_
    exact .certain .lift fun _ => answer_certain

theorem newInstanceOf_yields {cls : Value} {count : Nat} : Yields Undone (newInstanceOf cls count) :=
  .bind instanceSpec_stays fun _ => .bind .require fun _ => .lift

theorem basicNew_yields : Yields Undone (basicNew n) :=
  .bind stackObject_stays fun _ => .certain newInstanceOf_yields fun _ => answer_certain

theorem basicNewSized_yields : Yields Undone (basicNewSized n) :=
  .bind stackObject_stays fun _ => .bind stackPositive32_stays fun _ => .bind .require fun _ =>
    .certain newInstanceOf_yields fun _ => answer_certain

theorem identityHash_yields : Yields Undone (identityHash n) :=
  .bind stackObject_stays fun _ => .bind (.lift object_within) fun _ => answer_certain.yields

theorem someInstance_yields : Yields Undone (someInstance n) :=
  .bind stackObject_stays fun _ => Certain.yields
    (.bind .lift fun _ => .bind .lift fun _ => answer_certain)

theorem nextInstance_yields : Yields Undone (nextInstance n) :=
  .bind stackObject_stays fun _ => Certain.yields
    (.bind .lift fun _ => .bind .lift fun _ => answer_certain)

theorem someObject_yields : Yields Undone (someObject n) :=
  Certain.yields (.bind .lift fun _ => .bind .lift fun _ => answer_certain)

theorem nextObject_yields : Yields Undone (nextObject n) :=
  .bind stackObject_stays fun _ => .certain .lift fun _ => answer_certain

theorem newMethod_yields : Yields Undone (newMethod n) :=
  .bind stackObject_stays fun _ => .bind stackPositive32_stays fun _ =>
    .bind stackInteger_stays fun _ => .bind instanceSpec_stays fun _ => .bind .require fun _ =>
    Certain.yields (.bind .lift fun _ => .bind .lift fun _ => answer_certain)

theorem clone_yields : Yields Undone (clone n) :=
  .bind stackObject_stays fun _ => .bind (.lift object_within) fun _ =>
    .certain .lift fun _ => answer_certain

section
variable {R : Machine → Machine → Prop} [Std.Refl R] [IsTrans Machine R]

theorem receiverOf_stays {special : Nat} : Stays R (receiverOf special) :=
  (Stays.lift stackValue_within).bind fun _ => (Stays.lift isInstanceOf_within).bind fun _ =>
    Stays.require.bind fun _ => .pure

/-- Renaming is refused before anything is changed. -/
theorem arrayBecome_yields {twoWay : Bool} : Yields R (arrayBecome twoWay n) := by
  refine .bind stackObject_stays fun receiver => .bind stackObject_stays fun argument => ?_
  refine .bind (.lift object_within) fun source => .bind (.lift object_within) fun target => ?_
  intro m m' hrun
  rcases bind_error.1 hrun with h | ⟨b, m₁, h, hrest⟩
  · exact absurd h lift_declined
  · rcases become_ok (lift_ok.1 h) with ⟨rfl, rfl⟩ | ⟨rfl, -⟩
    · have hfalse : Yields R (do
          require (false = true)
          answer 1 (← Attempt.stackValue 1)) := .bind .require fun _ =>
        (Certain.bind stackValue_certain fun _ => answer_certain).yields
      exact hfalse m₁ m' hrest
    · refine absurd hrest (Certain.bind (fun _ _ h => ?_) (fun _ =>
        Certain.bind stackValue_certain fun _ => answer_certain) m₁ m')
      exact absurd h (by simp [require, Pure.pure, EStateM.pure])

end

theorem identical_certain : Certain (identical n) :=
  .bind stackValue_certain fun _ => .bind stackValue_certain fun _ => answerTruth_certain

theorem classOf_certain : Certain (classOf n) :=
  .bind .lift fun _ => .bind .lift fun _ => answer_certain

theorem specialObjectsArray_certain : Certain (specialObjectsArray n) :=
  .bind .get fun _ => answer_certain

theorem readElement_yields {mode : AccessMode} : Yields Undone (readElement mode n) :=
  .certain indexedAt_false_yields fun _ => answer_certain

theorem writeElement_yields {mode : AccessMode} : Yields Undone (writeElement mode n) :=
  .certain indexedAtPut_false_yields fun _ => answer_certain

/-! ### Control -/

theorem blockCopy_yields : Yields Undone (blockCopy n) :=
  .certain Attempt.blockCopy_yields fun _ => answer_certain

theorem blockValue_yields : Yields Undone (blockValue n) :=
  .certain Attempt.blockValue_yields fun _ => .pure

theorem perform_yields : Yields Undone (perform n) := by
  cases n with
  | zero => exact Stays.decline.declined
  | succ count =>
    refine .bind stackObject_stays fun _ => .bind stackValue_stays fun _ => ?_
    refine .bind (.lift classOf_within) fun _ => .bind checkArity_stays fun _ => ?_
    refine .bind (.lift stackValues_within) fun _ => Certain.yields ?_
    exact .bind .lift fun _ => .bind (.forM fun _ => .lift) fun _ => .pure

theorem performWithArguments_yields : Yields Undone (performWithArguments n) :=
  .bind stackValue_stays fun _ => .bind (.lift classOf_within) fun _ => performWithArray_yields

theorem performInSuperclass_yields : Yields Undone (performInSuperclass n) :=
  .bind stackObject_stays fun _ => .bind stackValue_stays fun _ =>
    .bind (.lift classOf_within) fun _ => .bind (.lift isAncestor_within) fun _ =>
    .bind .require fun _ => performWithArray_yields

theorem flushCache_certain : Certain (flushCache n) := .bind .modify fun _ => .pure

theorem flushMethod_certain : Certain (flushMethod n) :=
  .bind .lift fun _ => .bind .modify fun _ => .pure

theorem flushSelector_certain : Certain (flushSelector n) :=
  .bind .lift fun _ => .bind .modify fun _ => .pure

/-! ### Processes -/

theorem signal_yields : Yields Undone (signal n) :=
  .bind receiverOf_stays fun _ => .certain .lift fun _ => .pure

theorem wait_yields : Yields Undone (wait n) :=
  .bind receiverOf_stays fun _ => .certain .lift fun _ => .pure

theorem resume_yields : Yields Undone (resume n) :=
  .bind receiverOf_stays fun _ => .bind (.lift activeProcess_within) fun _ =>
    .bind .require fun _ => .certain .lift fun _ => .pure

theorem suspend_yields : Yields Undone (suspend n) :=
  .bind (.lift stackValue_within) fun _ => .bind (.lift activeProcess_within) fun _ =>
    .bind .require fun _ => Certain.yields
    (.bind .lift fun _ => .bind .lift fun _ => .bind .lift fun _ => .pure)

theorem registerSemaphore_certain {index : Nat} {v : Value} :
    Certain (registerSemaphore index v) :=
  .bind .lift fun _ => .bind .lift fun _ => .bind .get fun _ => .lift

theorem answerStack_certain {depth : Nat} : Certain (do answer n (← Attempt.stackValue depth)) :=
  .bind stackValue_certain fun _ => answer_certain

theorem lowSpaceSemaphore_certain : Certain (lowSpaceSemaphore n) :=
  .bind stackValue_certain fun _ => .bind registerSemaphore_certain fun _ => answerStack_certain

theorem interruptSemaphore_certain : Certain (interruptSemaphore n) :=
  .bind stackValue_certain fun _ => .bind registerSemaphore_certain fun _ => answerStack_certain

theorem lowSpaceThreshold_yields : Yields Undone (lowSpaceThreshold n) :=
  .bind stackInteger_stays fun _ => (Certain.bind .modify fun _ => answerStack_certain).yields

theorem signalAtMilliseconds_yields : Yields Undone (signalAtMilliseconds n) :=
  .bind stackValue_stays fun _ => .bind stackInteger_stays fun _ => Certain.yields
    (.bind registerSemaphore_certain fun _ => .bind .lift fun _ => .bind .modify fun _ =>
      answerStack_certain)

/-! ### The system -/

theorem spaceLeft_certain : Certain spaceLeft := .bind .get fun _ => .bind .lift fun _ => .pure

theorem bytesLeft_certain : Certain (bytesLeft n) :=
  .bind spaceLeft_certain fun _ => answer_certain

theorem quit_certain : Certain (quit n) := .bind .modify fun _ => .pure

theorem millisecondClock_certain : Certain (millisecondClock n) :=
  .bind .get fun _ => answer_certain

theorem systemAttribute_certain : Certain (systemAttribute n) :=
  .bind .lift fun _ => answer_certain

theorem fullCollection_certain : Certain (fullCollection n) :=
  .bind .modify fun _ => .bind .lift fun _ => .bind .lift fun _ => bytesLeft_certain (n := n)

theorem incrementalCollection_certain : Certain (incrementalCollection n) :=
  .bind .lift fun _ => bytesLeft_certain (n := n)

theorem imageName_yields : Yields Undone (imageName n) :=
  .bind .require fun _ => .bind .get fun _ => .bind .ofOption fun _ => Certain.yields
    (.bind (.bind .get fun _ => .pure) fun _ => .bind .lift fun _ => answer_certain)

theorem secondsClock_yields : Yields Undone (secondsClock n) :=
  .bind .get fun _ => .certain newPositive32_yields fun _ => answer_certain

theorem vmPath_certain : Certain (vmPath n) :=
  .bind (.bind .get fun _ => .pure) fun _ => .bind .lift fun _ => answer_certain

theorem relinquish_yields : Yields Undone (relinquish n) := by
  match n with
  | 0 => exact Certain.yields (.bind .modify fun _ => .pure)
  | 1 =>
    exact .bind stackInteger_stays fun _ => Certain.yields
      (.bind .lift fun _ => .bind .modify fun _ => .pure)
  | n + 2 => exact .bind .decline fun _ => Certain.yields (.bind .modify fun _ => .pure)

/-! ### Devices -/

theorem transferBits_yields {receiver : Value} {alpha : Option Int} :
    Yields Undone (transferBits n receiver alpha) := by
  refine .bind loadBlit_stays fun blit => .bind onDevices_stays fun done => ?_
  refine .bind .ofOption fun result => Certain.yields ?_
  obtain ⟨blit, area⟩ := result
  refine .bind .lift fun dest => .bind .lift fun _ => ?_
  have finish : ∀ blit : Device.Blit, Certain (do
      Action.popN n
      if blit.rule = 22 ∨ blit.rule = 32 then
        answer 0 (← Action.immediate blit.bitCount)
      else
        return .done) := fun blit =>
    .bind .lift fun _ => .ite (.bind .lift fun _ => answer_certain) .pure
  cases area with
  | none => exact finish blit
  | some area =>
    refine .bind .lift fun _ => .ite ?_ (finish blit)
    exact .bind onDevices_certain fun _ => finish blit

theorem copyBits_yields : Yields Undone (copyBits n) :=
  .bind .require fun _ => .bind stackObject_stays fun _ =>
    .ite (.bind stackInteger_stays fun _ => transferBits_yields) transferBits_yields

theorem beCursor_yields : Yields Undone (beCursor n) := by
  refine .bind .require fun _ => .bind stackObject_stays fun _ => .bind loadForm_stays fun _ => ?_
  refine .bind (orDecline_stays fetch_within fun m e m' h => ?_) fun _ => ?_
  · rw [fetch_error h]
    exact .refl m'
  · refine .bind (.lift isInstanceOf_within) fun _ => .bind .require fun _ => ?_
    refine .bind (.lift fetch_within) fun _ => .bind integer32_stays fun _ => ?_
    refine .bind (.lift fetch_within) fun _ => .bind integer32_stays fun _ => ?_
    exact Certain.yields (.bind onDevices_certain fun _ => .bind .lift fun _ => .pure)

theorem beDisplay_yields : Yields Undone (beDisplay n) :=
  .bind stackObject_stays fun _ => .bind loadForm_stays fun _ => .bind onDevices_stays fun _ =>
    .bind .require fun _ => Certain.yields (.bind .get fun _ => .bind .lift fun _ => .pure)

theorem mousePoint_certain : Certain (mousePoint n) :=
  .bind .get fun _ => .bind .lift fun _ => answer_certain

theorem screenSize_certain : Certain (screenSize n) :=
  .bind .get fun _ => .bind .lift fun _ => answer_certain

theorem mouseButtons_certain : Certain (mouseButtons n) :=
  .bind .get fun _ => .bind .lift fun _ => answer_certain

theorem keyboardPeek_certain : Certain (keyboardPeek n) :=
  .bind .get fun _ => .bind .lift fun _ => answer_certain

theorem keyboardNext_certain : Certain (keyboardNext n) :=
  .bind onDevices_certain fun _ => .bind .lift fun _ => answer_certain

theorem reverseDisplay_certain : Certain (reverseDisplay n) :=
  .bind onDevices_certain fun _ => .pure

/-! ### Files -/

theorem fileAtEnd_yields : Yields Undone (fileAtEnd n) :=
  .bind .require fun _ => .bind stackHandle_stays fun _ => .bind .get fun _ =>
    .bind .ofOption fun _ => .bind .get fun _ => .bind .ofOption fun _ => answerTruth_certain.yields

theorem fileClose_yields : Yields Undone (fileClose n) :=
  .bind .require fun _ => .bind stackHandle_stays fun _ => .bind onDevices_stays fun _ =>
    .bind .require fun _ => answerStack_certain.yields

theorem filePosition_yields : Yields Undone (filePosition n) :=
  .bind .require fun _ => .bind stackHandle_stays fun _ => .bind .get fun _ =>
    .bind .ofOption fun _ => .certain newPositive32_yields fun _ => answer_certain

theorem openNamed_yields {path : String} {writable : Bool} :
    Yields Undone (openNamed path writable) := by
  refine .bind .get fun _ => .bind .ofOption fun opened => ?_
  obtain ⟨handle, devices⟩ := opened
  refine .bind (modify_stays fun m => ?_) fun _ => ?_
  · exact .of_memory rfl rfl rfl rfl rfl
  · split
    · exact answer_certain.yields
    · exact .bind onDevices_stays fun _ => Stays.decline.declined

theorem fileOpen_yields : Yields Undone (fileOpen n) := by
  refine .bind .require fun _ => .bind stackPath_stays fun path => .bind stackValue_stays fun _ => ?_
  refine .bind (.lift truth_within) fun _ => .ite openNamed_yields ?_
  exact .bind (.lift truth_within) fun _ => .ite openNamed_yields Stays.decline.declined

theorem fileRead_yields : Yields Undone (fileRead n) := by
  refine .bind .require fun _ => .bind stackHandle_stays fun _ => ?_
  refine .bind stackByteRange_stays fun range => ?_
  obtain ⟨buffer, first, count⟩ := range
  refine .bind hostHandle_stays fun _ => .bind onFiles_stays fun part => ?_
  refine .bind (.lift object_within) fun _ => .bind .ofOption fun _ => .bind .ofOption fun bytes => ?_
  refine .bind (.lift fun m u m' hrun => ?_) fun _ =>
    .certain newPositive32_yields fun _ => answer_certain
  obtain rfl := modifyMemory_ok.1 hrun
  exact Undone.of_body (f := fun o => { o with body := .bytes bytes }) fun _ => ⟨rfl, rfl⟩

theorem fileSetPosition_yields : Yields Undone (fileSetPosition n) :=
  .bind .require fun _ => .bind stackHandle_stays fun _ => .bind stackPositive32_stays fun _ =>
    .bind hostHandle_stays fun _ => .bind changeFiles_stays fun _ => answerStack_certain.yields

theorem fileDelete_yields : Yields Undone (fileDelete n) :=
  .bind .require fun _ => .bind stackPath_stays fun _ => .bind changeFiles_stays fun _ =>
    answerStack_certain.yields

theorem fileSize_yields : Yields Undone (fileSize n) :=
  .bind .require fun _ => .bind stackHandle_stays fun _ => .bind .get fun _ =>
    .bind .ofOption fun _ => .certain newPositive32_yields fun _ => answer_certain

theorem fileWrite_yields : Yields Undone (fileWrite n) := by
  refine .bind .require fun _ => .bind stackHandle_stays fun _ => ?_
  refine .bind stackByteRange_stays fun range => ?_
  obtain ⟨buffer, first, count⟩ := range
  refine .bind (.lift object_within) fun _ => .bind .ofOption fun _ => ?_
  refine .bind hostHandle_stays fun _ => .bind changeFiles_stays fun _ => ?_
  exact .certain newPositive32_yields fun _ => answer_certain

theorem fileRename_yields : Yields Undone (fileRename n) :=
  .bind .require fun _ => .bind stackPath_stays fun _ => .bind stackPath_stays fun _ =>
    .bind changeFiles_stays fun _ => answerStack_certain.yields

theorem createDirectory_yields : Yields Undone (createDirectory n) :=
  .bind .require fun _ => .bind stackPath_stays fun _ => .bind changeFiles_stays fun _ =>
    answerStack_certain.yields

theorem pathDelimiter_yields : Yields Undone (pathDelimiter n) :=
  .bind .get fun _ => .bind .require fun _ => .certain .lift fun _ => answer_certain

theorem lookupEntry_yields : Yields Undone (lookupEntry n) := by
  refine .bind .require fun _ => .bind stackPath_stays fun _ => .bind stackInteger_stays fun _ => ?_
  refine .bind natural_stays fun _ => .bind .require fun _ => .bind .get fun _ => ?_
  refine .bind .ofOption fun found => ?_
  cases found with
  | some e => exact .certain entryArray_yields fun _ => answer_certain
  | none => exact Certain.yields (.bind .lift fun _ => answer_certain)

/-! ### The table -/

theorem all_yield : ∀ p ∈ all, ∀ n, Yields Undone (p.action n) := by
  simp only [all, List.forall_mem_cons, List.not_mem_nil, false_imp_iff, implies_true, and_true]
  exact ⟨
    fun _ => integerOp_yields, fun _ => integerOp_yields, fun _ => integerComparison_yields,
    fun _ => integerComparison_yields, fun _ => integerComparison_yields,
    fun _ => integerComparison_yields, fun _ => integerComparison_yields,
    fun _ => integerComparison_yields, fun _ => integerOp_yields, fun _ => integerOp_yields,
    fun _ => integerOp_yields, fun _ => integerOp_yields, fun _ => integerOp_yields,
    fun _ => bitOp_yields, fun _ => bitOp_yields, fun _ => bitOp_yields, fun _ => bitShift_yields,
    fun _ => point_yields, fun _ => asFloat_yields, fun _ => floatOp_yields,
    fun _ => floatOp_yields, fun _ => floatComparison_yields, fun _ => floatComparison_yields,
    fun _ => floatComparison_yields, fun _ => floatComparison_yields,
    fun _ => floatComparison_yields, fun _ => floatComparison_yields, fun _ => floatOp_yields,
    fun _ => floatOp_yields, fun _ => truncated_yields, fun _ => logarithm_yields,
    fun _ => readElement_yields, fun _ => writeElement_yields, fun _ => size_yields,
    fun _ => readElement_yields, fun _ => writeElement_yields, fun _ => readElement_yields,
    fun _ => writeElement_yields, fun _ => basicNew_yields, fun _ => basicNewSized_yields,
    fun _ => arrayBecome_yields, fun _ => readElement_yields, fun _ => writeElement_yields,
    fun _ => identityHash_yields, fun _ => someInstance_yields, fun _ => nextInstance_yields,
    fun _ => newMethod_yields, fun _ => blockCopy_yields, fun _ => blockValue_yields,
    fun _ => perform_yields, fun _ => performWithArguments_yields, fun _ => signal_yields,
    fun _ => wait_yields, fun _ => resume_yields, fun _ => suspend_yields,
    fun _ => flushCache_certain.yields, fun _ => mousePoint_certain.yields,
    fun _ => copyBits_yields, fun _ => performInSuperclass_yields, fun _ => beCursor_yields,
    fun _ => beDisplay_yields, fun _ => replaceElements_yields,
    fun _ => screenSize_certain.yields, fun _ => mouseButtons_certain.yields,
    fun _ => keyboardNext_certain.yields, fun _ => keyboardPeek_certain.yields,
    fun _ => identical_certain.yields, fun _ => classOf_certain.yields,
    fun _ => bytesLeft_certain.yields, fun _ => quit_certain.yields,
    fun _ => flushMethod_certain.yields, fun _ => flushSelector_certain.yields,
    fun _ => imageName_yields, fun _ => reverseDisplay_certain.yields,
    fun _ => lowSpaceSemaphore_certain.yields, fun _ => lowSpaceThreshold_yields,
    fun _ => arrayBecome_yields, fun _ => specialObjectsArray_certain.yields,
    fun _ => fullCollection_certain.yields, fun _ => incrementalCollection_certain.yields,
    fun _ => interruptSemaphore_certain.yields, fun _ => millisecondClock_certain.yields,
    fun _ => signalAtMilliseconds_yields, fun _ => secondsClock_yields,
    fun _ => someObject_yields, fun _ => nextObject_yields, fun _ => vmPath_certain.yields,
    fun _ => clone_yields, fun _ => systemAttribute_certain.yields, fun _ => fileAtEnd_yields,
    fun _ => fileClose_yields, fun _ => filePosition_yields, fun _ => fileOpen_yields,
    fun _ => fileRead_yields, fun _ => fileSetPosition_yields, fun _ => fileDelete_yields,
    fun _ => fileSize_yields, fun _ => fileWrite_yields, fun _ => fileRename_yields,
    fun _ => createDirectory_yields, fun _ => pathDelimiter_yields, fun _ => lookupEntry_yields,
    fun _ => relinquish_yields⟩

theorem mem_of_foldl {ps : List Primitive} {t : Array (Option Primitive)} {i : Nat} {p : Primitive}
    (h : (ps.foldl (fun t p => t.setIfInBounds p.number (some p)) t)[i]? = some (some p)) :
    (p ∈ ps ∧ p.number = i) ∨ t[i]? = some (some p) := by
  induction ps generalizing t with
  | nil => exact .inr h
  | cons q ps ih =>
    rcases ih h with ⟨hp, hi⟩ | hp
    · exact .inl ⟨List.mem_cons_of_mem q hp, hi⟩
    · rw [Array.getElem?_setIfInBounds] at hp
      split at hp
      · rename_i hi
        split at hp
        · obtain rfl := Option.some.inj (Option.some.inj hp)
          exact .inl ⟨List.mem_cons_self, hi⟩
        · exact absurd hp (by simp)
      · exact .inr hp

/-- What is found under a number is in the list, and has that number. -/
theorem found_of_find? {number : Nat} {p : Primitive} (h : find? number = some p) :
    p ∈ all ∧ p.number = number := by
  rw [find?, Option.join_eq_some_iff] at h
  rcases mem_of_foldl h with hp | hp
  · exact hp
  · rw [Array.getElem?_replicate] at hp
    split at hp
    · exact absurd hp (by simp)
    · exact absurd hp (by simp)

theorem mem_all_of_find? {number : Nat} {p : Primitive} (h : find? number = some p) : p ∈ all :=
  (found_of_find? h).1

theorem foldl_set_of_notMem {ps : List Primitive} {t : Array (Option Primitive)}
    (h : ∀ p ∈ ps, p.number ≠ n) :
    (ps.foldl (fun t p => t.setIfInBounds p.number (some p)) t)[n]? = t[n]? := by
  induction ps generalizing t with
  | nil => rfl
  | cons q ps ih =>
    rw [List.foldl_cons, ih fun p hp => h p (List.mem_cons_of_mem q hp),
      Array.getElem?_setIfInBounds_ne (h q List.mem_cons_self)]

/-- Where the numbers differ, every primitive ends up in its own place. -/
theorem foldl_set_of_mem {ps : List Primitive} {t : Array (Option Primitive)} {p : Primitive}
    (hp : p ∈ ps) (hnumbers : (ps.map number).Nodup) (hsize : p.number < t.size) :
    (ps.foldl (fun t p => t.setIfInBounds p.number (some p)) t)[p.number]? = some (some p) := by
  induction ps generalizing t with
  | nil => exact absurd hp List.not_mem_nil
  | cons q ps ih =>
    rw [List.map_cons, List.nodup_cons] at hnumbers
    rw [List.foldl_cons]
    rcases List.mem_cons.1 hp with rfl | hp
    · have hlater : ∀ r ∈ ps, r.number ≠ p.number := fun r hr e =>
        hnumbers.1 (List.mem_map.2 ⟨r, hr, e⟩)
      rw [foldl_set_of_notMem hlater, Array.getElem?_setIfInBounds_self_of_lt hsize]
    · exact ih hp hnumbers.2 (by rwa [Array.size_setIfInBounds])

/-- Every primitive is found by its number. -/
theorem find?_of_mem {p : Primitive} (h : p ∈ all) : find? p.number = some p := by
  have hnumbers : (all.map number).Nodup := by decide +kernel
  have hsize : ∀ k ∈ all.map number, k < tableSize := by decide +kernel
  rw [find?, table, foldl_set_of_mem h hnumbers]
  · rfl
  · rw [Array.size_replicate]
    exact hsize _ (List.mem_map_of_mem h)

/-- What is found by a number has that number. -/
theorem number_of_find? {number : Nat} {p : Primitive} (h : find? number = some p) :
    p.number = number := by
  by_cases hnone : ∀ q ∈ all, q.number ≠ number
  · rw [find?, table, foldl_set_of_notMem hnone, Array.getElem?_replicate] at h
    split at h
    · exact nomatch h
    · exact nomatch h
  · push Not at hnone
    obtain ⟨q, hq, rfl⟩ := hnone
    rw [find?_of_mem hq] at h
    rw [Option.some.inj h]

end Smalltalk.Primitive
