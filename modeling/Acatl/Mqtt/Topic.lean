/-
Acatl.Mqtt.Topic — `mqtt_topic.h`: the topic level iterator, topic filters
and topic names.

`TopicHierarchyIterator` is a handle. Its copy constructor copies the
`std::shared_ptr` to the `impl` object, so all copies of one iterator read
and advance ONE object, and `++` on a copy moves every other copy. The
object therefore lives in a heap (`ImplHeap`) here and an iterator is a
nullable pointer into it; `operator++` resets the pointer of the iterator it
is applied to when the object is exhausted, and leaves the copies as they
are.

The three `std::string::const_iterator`s of the object are offsets into the
string they point into, so `_start` is 0 and `_end` is the length. Reading
`*_pos` at the end of a `std::string` gives its terminating NUL.
-/
import Acatl.Mqtt.Types

namespace Acatl.Mqtt

/-! ## The characters with a meaning -/

/-- `'/'`, the topic level separator. -/
def slash : UInt8 := 0x2F
/-- `'+'`. -/
def plusSign : UInt8 := 0x2B
/-- `'#'`. -/
def hashSign : UInt8 := 0x23

/-- The level `"+"`, the single level wildcard. -/
def plusLevel : Bytes := [plusSign]
/-- The level `"#"`, the multi level wildcard. -/
def hashLevel : Bytes := [hashSign]

/-! ## TopicHierarchyIterator -/

/-- `TopicHierarchyIterator::impl`. -/
structure IteratorImpl where
  /-- the string the iterators of the source point into -/
  text : Bytes
  /-- `_nextTopic`: the level `operator*` returns -/
  current : Bytes
  /-- `_pos` -/
  pos : Nat
  deriving DecidableEq

/-- `impl::nextTopic`. -/
def IteratorImpl.nextTopic (i : IteratorImpl) : Bool × IteratorImpl :=
  if i.pos = i.text.length then
    (false, i)
  else if i.pos = 0 ∧ i.text[i.pos]? = some slash then
    -- the first topic level separator is a level without name
    (true, { i with pos := i.pos + 1, current := [] })
  else
    let level := (i.text.drop i.pos).takeWhile (· ≠ slash)
    let pos := i.pos + level.length
    (true, { i with
      current := level
      pos := if i.text[pos]? = some slash then pos + 1 else pos })

/-- `impl::impl(topic)`: the constructor reads the first level. -/
def IteratorImpl.make (topic : Bytes) : IteratorImpl :=
  (IteratorImpl.nextTopic { text := topic, current := [], pos := 0 }).2

/-- The address of an `impl` object. -/
abbrev ImplPtr := Nat

/-- The `impl` objects alive, by address. -/
abbrev ImplHeap := ImplPtr → IteratorImpl

/-- `TopicHierarchyIterator`: the pointer `_impl`. `none` is the null pointer
of a default constructed iterator, which is what `end()` returns; comparing
an iterator with `end()` is therefore the null test on it. -/
abbrev TopicHierarchyIterator := Option ImplPtr

/-- `operator++` on an iterator that is not null. -/
def TopicHierarchyIterator.increment (p : ImplPtr) (heap : ImplHeap) :
    TopicHierarchyIterator × ImplHeap :=
  match (heap p).nextTopic with
  | (true, i) => (some p, Function.update heap p i)
  | (false, i) => (none, Function.update heap p i)

/-- `begin()` on a topic name or filter allocates one object; `heap` is any
heap and `p` the address the allocation returns. -/
def TopicHierarchyIterator.begin (topic : Bytes) (p : ImplPtr) (heap : ImplHeap) :
    TopicHierarchyIterator × ImplHeap :=
  (some p, Function.update heap p (IteratorImpl.make topic))

/-! ## TopicFilter -/

/-- `TopicFilter`. -/
structure TopicFilter where
  filter : Bytes
  qos : QoSLevel := .atMostOnce
  deriving DecidableEq

abbrev TopicFilters := List TopicFilter

/-- The byte order of `std::string`'s `operator<`. -/
def stringLt : Bytes → Bytes → Bool
  | _, [] => false
  | [], _ :: _ => true
  | a :: as, b :: bs => if a < b then true else if b < a then false else stringLt as bs

/-- `TopicFilter::operator<`. -/
def TopicFilter.lt (lhs rhs : TopicFilter) : Bool :=
  stringLt lhs.filter rhs.filter || decide (lhs.qos.value < rhs.qos.value)

/-- The loop of `TopicFilter::validate` from some position on; `previous` is
the character before it, and `0` at the start. -/
def TopicFilter.validateFrom (previous : UInt8) : Bytes → ErrorCode → Bool × ErrorCode
  | [], ec => (true, ec)
  | c :: rest, ec =>
    if c = plusSign ∧
        ((previous ≠ 0 ∧ previous ≠ slash) ∨ (rest ≠ [] ∧ rest.head? ≠ some slash)) then
      (false, some .invalidTopicFilter)
    else if c = hashSign ∧ ((previous ≠ 0 ∧ previous ≠ slash) ∨ rest ≠ []) then
      (false, some .invalidTopicFilter)
    else
      validateFrom c rest ec

/-- `TopicFilter::validate`. -/
def TopicFilter.validate (f : TopicFilter) (ec : ErrorCode) : Bool × ErrorCode :=
  validateFrom 0 f.filter ec

/-- The error code is set on the filters that do not pass, and on no others. -/
theorem TopicFilter.validateFrom_ec (text : Bytes) : ∀ (previous : UInt8) (ec : ErrorCode),
    (validateFrom previous text ec).2 =
      if (validateFrom previous text ec).1 then ec else some .invalidTopicFilter := by
  induction text with
  | nil => intro previous ec; rfl
  | cons c cs ih =>
    intro previous ec
    rw [validateFrom]
    split
    · rfl
    · split
      · rfl
      · exact ih c ec

/-- `filter` passes `TopicFilter::validate`. -/
def TopicFilter.Valid (f : TopicFilter) : Prop := (f.validate none).1 = true

instance (f : TopicFilter) : Decidable f.Valid :=
  inferInstanceAs (Decidable ((f.validate none).1 = true))

/-- `TopicFilter::begin`. -/
def TopicFilter.begin (f : TopicFilter) : ImplPtr → ImplHeap → TopicHierarchyIterator × ImplHeap :=
  TopicHierarchyIterator.begin f.filter

/-! ## TopicFilterHelper -/

/-- The inner loop of `std::set_difference` for one element `a` of the first
range: it consumes the second range until `a` is decided. `next` continues
with the element after `a`. -/
def differenceFrom {α : Type} (lt : α → α → Bool) (a : α) (as : List α)
    (next : List α → List α) : List α → List α
  | [] => a :: as
  | b :: bs =>
    if lt a b then a :: next (b :: bs)
    else if lt b a then differenceFrom lt a as next bs
    else next bs

/-- `std::set_difference`, as the standard library writes it: whether the
ranges are sorted is the caller's concern. -/
def setDifference {α : Type} (lt : α → α → Bool) : List α → List α → List α
  | [], _ => []
  | a :: as, bs => differenceFrom lt a as (setDifference lt as) bs

/-- `TopicFilterHelper::findDifference`. -/
def findDifference (filtersToAdd currentFilters : TopicFilters) : TopicFilters :=
  setDifference TopicFilter.lt filtersToAdd currentFilters

/-! ## TopicName -/

/-- `TopicName`. -/
structure TopicName where
  name : Bytes
  deriving DecidableEq

/-- `TopicName::validate`. -/
def TopicName.validate (t : TopicName) (ec : ErrorCode) : Bool × ErrorCode :=
  if t.name.any (fun c => c = plusSign || c = hashSign) then
    (false, some .invalidWildcardInTopic)
  else
    (true, ec)

/-- `topic` passes `TopicName::validate`. -/
def TopicName.Valid (t : TopicName) : Prop := (t.validate none).1 = true

instance (t : TopicName) : Decidable t.Valid :=
  inferInstanceAs (Decidable ((t.validate none).1 = true))

/-- `TopicName::begin`. -/
def TopicName.begin (t : TopicName) : ImplPtr → ImplHeap → TopicHierarchyIterator × ImplHeap :=
  TopicHierarchyIterator.begin t.name

end Acatl.Mqtt
