import Smalltalk.Primitive.Arithmetic
import Smalltalk.Primitive.Control
import Smalltalk.Primitive.File
import Smalltalk.Primitive.Float
import Smalltalk.Primitive.Object
import Smalltalk.Primitive.Process
import Smalltalk.Primitive.System

/-!
# Primitive numbers

Compiled methods name primitives by number, so the numbering is fixed. The numbers 256 to 519 stand
for methods that answer a constant or a field of the receiver, which need no table.
-/

namespace Smalltalk

/-- A numbered primitive. -/
structure Primitive where
  number : Nat
  name : String
  action : PrimitiveAction

namespace Primitive

/-- All primitives, by ascending number. -/
def all : List Primitive := [
  ⟨1, "SmallInteger +", add⟩,
  ⟨2, "SmallInteger -", subtract⟩,
  ⟨3, "SmallInteger <", less⟩,
  ⟨4, "SmallInteger >", greater⟩,
  ⟨5, "SmallInteger <=", lessOrEqual⟩,
  ⟨6, "SmallInteger >=", greaterOrEqual⟩,
  ⟨7, "SmallInteger =", equal⟩,
  ⟨8, "SmallInteger ~=", notEqual⟩,
  ⟨9, "SmallInteger *", multiply⟩,
  ⟨10, "SmallInteger /", divide⟩,
  ⟨11, "SmallInteger \\\\", modulo⟩,
  ⟨12, "SmallInteger //", floorDivide⟩,
  ⟨13, "SmallInteger quo:", quotient⟩,
  ⟨14, "bitAnd:", bitAnd⟩,
  ⟨15, "bitOr:", bitOr⟩,
  ⟨16, "bitXor:", bitXor⟩,
  ⟨17, "bitShift:", bitShift⟩,
  ⟨18, "@", point⟩,
  ⟨40, "asFloat", asFloat⟩,
  ⟨41, "Float +", floatAdd⟩,
  ⟨42, "Float -", floatSubtract⟩,
  ⟨43, "Float <", floatLess⟩,
  ⟨44, "Float >", floatGreater⟩,
  ⟨45, "Float <=", floatLessOrEqual⟩,
  ⟨46, "Float >=", floatGreaterOrEqual⟩,
  ⟨47, "Float =", floatEqual⟩,
  ⟨48, "Float ~=", floatNotEqual⟩,
  ⟨49, "Float *", floatMultiply⟩,
  ⟨50, "Float /", floatDivide⟩,
  ⟨51, "truncated", truncated⟩,
  ⟨58, "ln", logarithm⟩,
  ⟨60, "basicAt:", basicAt⟩,
  ⟨61, "basicAt:put:", basicAtPut⟩,
  ⟨62, "size", size⟩,
  ⟨63, "String at:", stringAt⟩,
  ⟨64, "String at:put:", stringAtPut⟩,
  ⟨68, "objectAt:", objectAt⟩,
  ⟨69, "objectAt:put:", objectAtPut⟩,
  ⟨70, "basicNew", basicNew⟩,
  ⟨71, "basicNew:", basicNewSized⟩,
  ⟨72, "elementsForwardIdentityTo:", becomeForward⟩,
  ⟨73, "instVarAt:", objectAt⟩,
  ⟨74, "instVarAt:put:", objectAtPut⟩,
  ⟨75, "identityHash", identityHash⟩,
  ⟨77, "someInstance", someInstance⟩,
  ⟨78, "nextInstance", nextInstance⟩,
  ⟨79, "newMethod:header:", newMethod⟩,
  ⟨80, "blockCopy:", blockCopy⟩,
  ⟨81, "value", blockValue⟩,
  ⟨83, "perform:", perform⟩,
  ⟨84, "perform:withArguments:", performWithArguments⟩,
  ⟨85, "signal", signal⟩,
  ⟨86, "wait", wait⟩,
  ⟨87, "resume", resume⟩,
  ⟨88, "suspend", suspend⟩,
  ⟨89, "flushCache", flushCache⟩,
  ⟨90, "mousePoint", mousePoint⟩,
  ⟨96, "copyBits", copyBits⟩,
  ⟨100, "perform:withArguments:inSuperclass:", performInSuperclass⟩,
  ⟨101, "beCursor", beCursor⟩,
  ⟨102, "beDisplay", beDisplay⟩,
  ⟨105, "replaceFrom:to:with:startingAt:", replaceElements⟩,
  ⟨106, "actualScreenSize", screenSize⟩,
  ⟨107, "mouseButtons", mouseButtons⟩,
  ⟨108, "kbdNext", keyboardNext⟩,
  ⟨109, "kbdPeek", keyboardPeek⟩,
  ⟨110, "==", identical⟩,
  ⟨111, "class", classOf⟩,
  ⟨112, "bytesLeft", bytesLeft⟩,
  ⟨113, "quit", quit⟩,
  ⟨116, "flushCacheByMethod", flushMethod⟩,
  ⟨119, "flushCacheBySelector", flushSelector⟩,
  ⟨121, "imageName", imageName⟩,
  ⟨122, "reverseDisplay", reverseDisplay⟩,
  ⟨124, "lowSpaceSemaphore:", lowSpaceSemaphore⟩,
  ⟨125, "signalAtBytesLeft:", lowSpaceThreshold⟩,
  ⟨128, "elementsExchangeIdentityWith:", becomeBoth⟩,
  ⟨129, "specialObjectsArray", specialObjectsArray⟩,
  ⟨130, "garbageCollect", fullCollection⟩,
  ⟨131, "incrementalGarbageCollect", incrementalCollection⟩,
  ⟨134, "interruptSemaphore:", interruptSemaphore⟩,
  ⟨135, "millisecondClock", millisecondClock⟩,
  ⟨136, "signal:atMilliseconds:", signalAtMilliseconds⟩,
  ⟨137, "secondsClock", secondsClock⟩,
  ⟨138, "someObject", someObject⟩,
  ⟨139, "nextObject", nextObject⟩,
  ⟨142, "vmPath", vmPath⟩,
  ⟨148, "clone", clone⟩,
  ⟨149, "getSystemAttribute:", systemAttribute⟩,
  ⟨150, "primAtEnd:", fileAtEnd⟩,
  ⟨151, "primClose:", fileClose⟩,
  ⟨152, "primGetPosition:", filePosition⟩,
  ⟨153, "primOpen:writable:", fileOpen⟩,
  ⟨154, "primRead:into:startingAt:count:", fileRead⟩,
  ⟨155, "primSetPosition:to:", fileSetPosition⟩,
  ⟨156, "primDeleteFileNamed:", fileDelete⟩,
  ⟨157, "primSize:", fileSize⟩,
  ⟨158, "primWrite:from:startingAt:count:", fileWrite⟩,
  ⟨159, "primRename:to:", fileRename⟩,
  ⟨160, "primCreateDirectory:", createDirectory⟩,
  ⟨161, "primPathNameDelimiter", pathDelimiter⟩,
  ⟨162, "primLookupEntryIn:index:", lookupEntry⟩,
  ⟨230, "relinquishProcessorForMicroseconds:", relinquish⟩]

/-- One more than the highest number. -/
def tableSize : Nat := (all.map fun p => p.number + 1).foldl max 0

/-- The primitives by number. -/
def table : Array (Option Primitive) :=
  all.foldl (fun t p => t.setIfInBounds p.number (some p)) (Array.replicate tableSize none)

/-- The primitive of a number. -/
def find? (number : Nat) : Option Primitive := (table[number]?).join

/-- The first primitive of a name. -/
def named? (name : String) : Option Primitive := all.find? fun p => p.name == name

end Primitive

end Smalltalk
