/-
Acatl.Any — `Any` (`any.h`), a value of any type.

An `Any` is a pointer to a `ValueHolder` that came from `new`, or a null pointer.
Here the `Any`s of a program have names, and so has the temporary of an
assignment (`none`); what `new` gave and `delete` did not take back yet is in the
cells.  To delete or to follow a pointer that is not in use is undefined, and so
is everything done with an `Any` that is not alive: such steps have no outcome.

`new` can give any storage that is not in use, and may give the same again later.
That it throws, and that copying a value throws, is left out.

  §1  the functions;
  §2  a program that uses `Any`s, and the same program with values instead;
  §3  what one step does;
  §4  `any_is_a_value`: no step goes wrong, each does what it does to values,
      and whatever is in use belongs to one `Any`;
  §5  `pointer_stays_good`: how long a pointer from `any_cast` can be used.
-/
import Acatl.Lib.Machine
import Acatl.Lib.Ownership
import Acatl.Text

namespace Acatl.Any

open Acatl.Lib

/-! ## §1 The functions -/

/-- `ValueHolder<T>`. -/
structure ValueHolder {K : Type} (T : K → Type) where
  type : K
  value : T type

/-- `BadcastException`. -/
structure BadcastException where
  message : Text
  deriving DecidableEq

variable {K : Type} [DecidableEq K] {T : K → Type} {N L : Type} [DecidableEq N] [DecidableEq L]

/-- The value, if it is of the type. -/
def ValueHolder.as (k : K) (holder : ValueHolder T) : Option (T k) :=
  if h : holder.type = k then some (h ▸ holder.value) else none

/-- The `_holder` of every `Any` alive, and the holders in use. -/
abbrev Memory {K : Type} (T : K → Type) (N L : Type) := Holdings (Option N) L (ValueHolder T)

/-- `new ValueHolder<T>{value}` at the address `l`. -/
def new (l : L) (holder : ValueHolder T) (m : Memory T N L) : Option (Memory T N L) :=
  match m.cell l with
  | none => some { m with cell := Function.update m.cell l (some holder) }
  | some _ => none

/-- `delete`. -/
def delete (p : Option L) (m : Memory T N L) : Option (Memory T N L) :=
  match p with
  | none => some m
  | some l =>
    match m.cell l with
    | none => none
    | some _ => some { m with cell := Function.update m.cell l none }

/-- `: _holder(p)`, which begins the life of an `Any`. -/
def start (x : Option N) (p : Option L) (m : Memory T N L) : Option (Memory T N L) :=
  match m.held x with
  | none => some { m with held := Function.update m.held x (some p) }
  | some _ => none

/-- `Any()`. -/
def construct (x : Option N) (m : Memory T N L) : Option (Memory T N L) :=
  start x none m

/-- `Any(const T& value)`. -/
def constructValue (x : Option N) (l : L) (value : ValueHolder T) (m : Memory T N L) :
    Option (Memory T N L) := do
  start x (some l) (← new l value m)

/-- `Any(const Any& any)`, with `clone`. -/
def constructCopy (x any : Option N) (l : L) (m : Memory T N L) : Option (Memory T N L) := do
  match ← m.held any with
  | none => start x none m
  | some p =>
    let holder ← m.cell p
    start x (some l) (← new l holder m)

/-- `x.swap(any)`. -/
def swap (x any : Option N) (m : Memory T N L) : Option (Memory T N L) := do
  let p ← m.held x
  let q ← m.held any
  some { m with held := Function.update (Function.update m.held x (some q)) any (some p) }

/-- `Any(Any&& any)`. -/
def constructMove (x any : Option N) (m : Memory T N L) : Option (Memory T N L) := do
  swap x any (← start x none m)

/-- `~Any()`. -/
def destroy (x : Option N) (m : Memory T N L) : Option (Memory T N L) := do
  let p ← m.held x
  let m ← delete p m
  some { m with held := Function.update m.held x none }

/-- `operator=(const T& value)`. -/
def assignValue (x : Option N) (l : L) (value : ValueHolder T) (m : Memory T N L) :
    Option (Memory T N L) := do
  let m ← constructValue none l value m
  let m ← swap none x m
  destroy none m

/-- `operator=(const Any& any)`. -/
def assignCopy (x any : Option N) (l : L) (m : Memory T N L) : Option (Memory T N L) := do
  let m ← constructCopy none any l m
  let m ← swap none x m
  destroy none m

/-- `operator=(Any&& any)`. -/
def assignMove (x any : Option N) (m : Memory T N L) : Option (Memory T N L) :=
  swap x any m

/-- `empty`. -/
def empty (x : Option N) (m : Memory T N L) : Option Bool := do
  let p ← m.held x
  some p.isNone

/-- `any_cast<T>(const Any* any)`, of a null pointer or the address of an `Any`. -/
def castPointer (k : K) (any : Option (Option N)) (m : Memory T N L) : Option (Option L) :=
  match any with
  | none => some none
  | some x => do
    match ← m.held x with
    | none => some none
    | some p =>
      let holder ← m.cell p
      some (if k = holder.type then some p else none)

/-- `*p` of a pointer that `any_cast<T>` returned. -/
def deref (k : K) (p : L) (m : Memory T N L) : Option (T k) := do
  (← m.cell p).as k

/-- `*p = value` of a pointer that `any_cast<T>` returned. -/
def store (k : K) (p : L) (value : T k) (m : Memory T N L) : Option (Memory T N L) := do
  let _ ← deref k p m
  some { m with cell := Function.update m.cell p (some ⟨k, value⟩) }

section

-- the name of a type at run time
variable (getTypename : K → Text)

/-- What `any_cast` throws when there is no value. -/
def noValue : BadcastException := ⟨Text.ofString "any_cast: any has no value"⟩

/-- What `any_cast` throws when the value is of another type. -/
def otherType (k : K) : BadcastException :=
  ⟨Text.ofString "any_cast: cannot cast to given type '" ++ getTypename k ++ Text.ofString "'"⟩

/-- `any_cast<T>(const Any& any)`. -/
def cast (k : K) (x : Option N) (m : Memory T N L) : Option (Except BadcastException (T k)) := do
  if ← empty x m then
    some (.error noValue)
  else
    match ← castPointer k (some x) m with
    | none => some (.error (otherType getTypename k))
    | some p => some (.ok (← deref k p m))

/-! ## §2 Programs -/

/-- What a program does with its `Any`s, and where `new` puts what it makes. -/
inductive Request (T : K → Type) (N L : Type) where
  | construct (x : N)
  | constructValue (x : N) (l : L) (value : ValueHolder T)
  | constructCopy (x any : N) (l : L)
  | constructMove (x any : N)
  | destroy (x : N)
  | swap (x any : N)
  | assignValue (x : N) (l : L) (value : ValueHolder T)
  | assignCopy (x any : N) (l : L)
  | assignMove (x any : N)
  | empty (x : N)
  | cast (k : K) (x : N)
  -- `any_cast<T>(any)`, and what the pointer refers to
  | read (k : K) (any : Option N)
  -- `any_cast<T>(&x)`, and a value for what the pointer refers to
  | write (k : K) (x : N) (value : T k)

/-- What it gets for that. -/
inductive Reply (T : K → Type) where
  | done
  | isEmpty (b : Bool)
  | cast (k : K) (result : Except BadcastException (T k))
  | read (k : K) (value : Option (T k))
  | wrote (b : Bool)

/-- A step that changes the memory. -/
def act (m : Memory T N L) (result : Option (Memory T N L)) : Option (Reply T) × Memory T N L :=
  match result with
  | some m' => (some .done, m')
  | none => (none, m)

/-- One step of a program. -/
def step : Machine (Memory T N L) (Request T N L) (Option (Reply T)) := fun m request =>
  match request with
  | .construct x => act m (construct (some x) m)
  | .constructValue x l value => act m (constructValue (some x) l value m)
  | .constructCopy x any l => act m (constructCopy (some x) (some any) l m)
  | .constructMove x any => act m (constructMove (some x) (some any) m)
  | .destroy x => act m (destroy (some x) m)
  | .swap x any => act m (swap (some x) (some any) m)
  | .assignValue x l value => act m (assignValue (some x) l value m)
  | .assignCopy x any l => act m (assignCopy (some x) (some any) l m)
  | .assignMove x any => act m (assignMove (some x) (some any) m)
  | .empty x => (do some (.isEmpty (← empty (some x) m)), m)
  | .cast k x => (do some (.cast k (← cast getTypename k (some x) m)), m)
  | .read k any =>
    (do
      match ← castPointer k (any.map some) m with
      | none => some (.read k none)
      | some p => some (.read k (some (← deref k p m))), m)
  | .write k x value =>
    match castPointer k (some (some x)) m with
    | none => (none, m)
    | some none => (some (.wrote false), m)
    | some (some p) =>
      match store k p value m with
      | none => (none, m)
      | some m' => (some (.wrote true), m')

/-- The `Any`s that a request is about are alive, or not yet alive if they are
about to be, and what `new` gives is not in use. -/
def Scoped (m : Memory T N L) : Request T N L → Prop
  | .construct x => m.held (some x) = none
  | .constructValue x l _ => m.held (some x) = none ∧ m.cell l = none
  | .constructCopy x any l =>
    m.held (some x) = none ∧ (m.held (some any)).isSome ∧ m.cell l = none
  | .constructMove x any => m.held (some x) = none ∧ (m.held (some any)).isSome
  | .destroy x | .empty x | .cast _ x | .read _ (some x) | .write _ x _ =>
    (m.held (some x)).isSome
  | .read _ none => True
  | .swap x any | .assignMove x any => (m.held (some x)).isSome ∧ (m.held (some any)).isSome
  | .assignValue x l _ => (m.held (some x)).isSome ∧ m.cell l = none
  | .assignCopy x any l =>
    (m.held (some x)).isSome ∧ (m.held (some any)).isSome ∧ m.cell l = none

instance (m : Memory T N L) (l : L) : Decidable (m.cell l = none) :=
  decidable_of_iff (m.cell l).isNone Option.isNone_iff_eq_none

instance (m : Memory T N L) : DecidablePred (Scoped m)
  | .construct x => inferInstanceAs (Decidable (m.held (some x) = none))
  | .constructValue _ _ _ | .constructMove _ _ | .swap _ _ | .assignMove _ _
  | .assignValue _ _ _ => inferInstanceAs (Decidable (_ ∧ _))
  | .constructCopy _ _ _ | .assignCopy _ _ _ => inferInstanceAs (Decidable (_ ∧ _ ∧ _))
  | .destroy x | .empty x | .cast _ x | .read _ (some x) | .write _ x _ =>
    inferInstanceAs (Decidable ((m.held (some x)).isSome = true))
  | .read _ none => inferInstanceAs (Decidable True)

/-- Variables each of which has a value, has none, or is not alive. -/
abbrev Variables {K : Type} (T : K → Type) (N : Type) := N → Option (Option (ValueHolder T))

namespace Variables

/-- The value of a variable, if it has one. -/
def value (s : Variables T N) (x : N) : Option (ValueHolder T) := (s x).join

/-- The value of a variable as a type. -/
def cast (s : Variables T N) (k : K) (x : N) : Except BadcastException (T k) :=
  match s.value x with
  | none => .error noValue
  | some holder =>
    match holder.as k with
    | none => .error (otherType getTypename k)
    | some value => .ok value

/-- **What the requests mean**: every variable has a value of its own. -/
def step : Machine (Variables T N) (Request T N L) (Reply T) := fun s request =>
  match request with
  | .construct x => (.done, Function.update s x (some none))
  | .constructValue x _ value | .assignValue x _ value =>
    (.done, Function.update s x (some (some value)))
  | .constructCopy x any _ | .assignCopy x any _ => (.done, Function.update s x (s any))
  | .constructMove x any =>
    (.done, Function.update (Function.update s x (s any)) any (some none))
  | .destroy x => (.done, Function.update s x none)
  | .swap x any | .assignMove x any =>
    (.done, Function.update (Function.update s x (s any)) any (s x))
  | .empty x => (.isEmpty (s.value x).isNone, s)
  | .cast k x => (.cast k (s.cast getTypename k x), s)
  | .read k any => (.read k ((any.bind s.value).bind (ValueHolder.as k)), s)
  | .write k x value =>
    match (s.value x).bind (ValueHolder.as k) with
    | none => (.wrote false, s)
    | some _ => (.wrote true, Function.update s x (some (some ⟨k, value⟩)))

end Variables

end

/-! ## §3 One step -/

section

omit [DecidableEq K]

variable {m : Memory T N L} {x any : Option N}

/-- There is an outcome, in which every cell in use has one owner and the values
are these. -/
def Yields (result : Option (Memory T N L)) (values : Variables T (Option N)) : Prop :=
  ∃ m', result = some m' ∧ m'.Owned ∧ m'.values = values

omit [DecidableEq N] [DecidableEq L] in
theorem Yields.bind {result : Option (Memory T N L)} {values values' : Variables T (Option N)}
    {f : Memory T N L → Option (Memory T N L)} (h : Yields result values)
    (hf : ∀ m', m'.Owned → m'.values = values → Yields (f m') values') :
    Yields (result >>= f) values' := by
  obtain ⟨m', rfl, howned, hvalues⟩ := h
  exact hf m' howned hvalues

omit [DecidableEq L] in
theorem construct_yields (hm : m.Owned) (hx : m.held x = none) :
    Yields (construct x m) (Function.update m.values x (some none)) := by
  refine ⟨m.start x, ?_, Holdings.owned_start hm x hx, Holdings.values_start m x⟩
  simp [construct, start, hx, Holdings.start]

theorem constructValue_yields (hm : m.Owned) {l : L} (value : ValueHolder T)
    (hx : m.held x = none) (hl : m.cell l = none) :
    Yields (constructValue x l value m) (Function.update m.values x (some (some value))) := by
  refine ⟨m.startWith x l value, ?_, Holdings.owned_startWith hm value hx hl,
    Holdings.values_startWith hm value hl⟩
  simp [constructValue, new, start, hx, hl, Holdings.startWith]

theorem constructCopy_yields (hm : m.Owned) {l : L} (hx : m.held x = none)
    (hany : (m.held any).isSome) (hl : m.cell l = none) :
    Yields (constructCopy x any l m) (Function.update m.values x (m.values any)) := by
  obtain ⟨p, hp⟩ := Option.isSome_iff_exists.mp hany
  rw [Holdings.values_of_held hp]
  cases p with
  | none =>
    have heq : constructCopy x any l m = construct x m := by
      simp [constructCopy, construct, hp]
    rw [heq]
    exact construct_yields hm hx
  | some p =>
    obtain ⟨holder, hholder⟩ := Option.isSome_iff_exists.mp (hm.live any p hp)
    have heq : constructCopy x any l m = constructValue x l holder m := by
      simp [constructCopy, constructValue, hp, hholder]
    rw [heq, Option.bind_some, hholder]
    exact constructValue_yields hm holder hx hl

omit [DecidableEq L] in
theorem swap_yields (hm : m.Owned) (hx : (m.held x).isSome) (hany : (m.held any).isSome) :
    Yields (swap x any m)
      (Function.update (Function.update m.values x (m.values any)) any (m.values x)) := by
  obtain ⟨p, hp⟩ := Option.isSome_iff_exists.mp hx
  obtain ⟨q, hq⟩ := Option.isSome_iff_exists.mp hany
  refine ⟨m.exchange x any, ?_, Holdings.owned_exchange hm x any, Holdings.values_exchange m x any⟩
  simp [swap, hp, hq, Holdings.exchange]

omit [DecidableEq L] in
theorem constructMove_yields (hm : m.Owned) (hx : m.held x = none) (hany : (m.held any).isSome) :
    Yields (constructMove x any m)
      (Function.update (Function.update m.values x (m.values any)) any (some none)) := by
  have hne : any ≠ x := by
    rintro rfl
    simp [hx] at hany
  refine (construct_yields hm hx).bind fun m' howned hvalues => ?_
  have halive : ∀ y, (m'.held y).isSome = (Function.update m.values x (some none) y).isSome := by
    intro y
    rw [← Holdings.isSome_values, hvalues]
  have hswap : Yields (swap x any m') _ :=
    swap_yields howned (by simp [halive]) (by simpa [halive, hne] using hany)
  simpa [hvalues, hne] using hswap

theorem destroy_yields (hm : m.Owned) (hx : (m.held x).isSome) :
    Yields (destroy x m) (Function.update m.values x none) := by
  obtain ⟨p, hp⟩ := Option.isSome_iff_exists.mp hx
  refine ⟨m.finish x p, ?_, Holdings.owned_finish hm hp, Holdings.values_finish hm hp⟩
  cases p with
  | none => simp [destroy, delete, hp, Holdings.finish]
  | some l =>
    obtain ⟨holder, hholder⟩ := Option.isSome_iff_exists.mp (hm.live x l hp)
    simp [destroy, delete, hp, hholder, Holdings.finish]

/-- An assignment: a temporary is made, exchanged for what is assigned to, and
destroyed with what was there before. -/
theorem assign_yields {temporary : Option (Memory T N L)} {value : Option (ValueHolder T)} {x : N}
    (htemporary : Yields temporary (Function.update m.values none (some value)))
    (hx : (m.held (some x)).isSome) (hnone : m.held none = none) :
    Yields (do let m ← temporary; let m ← swap none (some x) m; destroy none m)
      (Function.update m.values (some x) (some value)) := by
  refine htemporary.bind fun m₁ howned₁ hvalues₁ => ?_
  have halive₁ : ∀ y,
      (m₁.held y).isSome = (Function.update m.values none (some value) y).isSome := by
    intro y
    rw [← Holdings.isSome_values, hvalues₁]
  have hswap : Yields (swap none (some x) m₁) _ :=
    swap_yields howned₁ (by simp [halive₁]) (by simpa [halive₁] using hx)
  refine hswap.bind fun m₂ howned₂ hvalues₂ => ?_
  have hdestroy : Yields (destroy none m₂) (Function.update m₂.values none none) := by
    refine destroy_yields howned₂ ?_
    rw [← Holdings.isSome_values, hvalues₂, hvalues₁]
    simpa using hx
  have hback : Function.update m₂.values none none =
      Function.update m.values (some x) (some value) := by
    funext y
    cases y with
    | none => simp [Holdings.values_eq_none.mpr hnone]
    | some y => by_cases h : y = x <;> simp [hvalues₂, hvalues₁, h]
  rwa [hback] at hdestroy

end

section

variable {m : Memory T N L} (getTypename : K → Text)

section

omit [DecidableEq N] [DecidableEq L]

@[simp] theorem ValueHolder.as_mk (k : K) (value : T k) :
    (ValueHolder.mk k value).as k = some value := by
  simp [ValueHolder.as]

theorem ValueHolder.as_of_ne {k : K} {holder : ValueHolder T} (h : k ≠ holder.type) :
    holder.as k = none := by
  simp [ValueHolder.as, h.symm]

end

/-- The variables that the `Any`s stand for. -/
def contents (m : Memory T N L) : Variables T N := fun x => m.values (some x)

/-- What `any_cast` finds of an `Any` alive: no value, a value of another type,
or a value of the type. -/
inductive Found (m : Memory T N L) (k : K) (x : N) : Prop where
  | noValue (held : m.held (some x) = some none) (value : (contents m).value x = none)
  | otherType (p : L) (holder : ValueHolder T) (held : m.held (some x) = some (some p))
      (cell : m.cell p = some holder) (value : (contents m).value x = some holder)
      (type : k ≠ holder.type)
  | ofType (p : L) (t : T k) (held : m.held (some x) = some (some p))
      (cell : m.cell p = some ⟨k, t⟩) (value : (contents m).value x = some ⟨k, t⟩)

omit [DecidableEq N] [DecidableEq L] in
theorem found (hm : m.Owned) {x : N} (hx : (m.held (some x)).isSome) (k : K) : Found m k x := by
  obtain ⟨p, hp⟩ := Option.isSome_iff_exists.mp hx
  have hvalue : (contents m).value x = p.bind m.cell := by
    simp [Variables.value, contents, Holdings.values_of_held hp]
  cases p with
  | none => exact .noValue hp hvalue
  | some p =>
    obtain ⟨holder, hholder⟩ := Option.isSome_iff_exists.mp (hm.live (some x) p hp)
    rw [Option.bind_some, hholder] at hvalue
    by_cases htype : k = holder.type
    · subst htype
      exact .ofType p holder.value hp hholder hvalue
    · exact .otherType p holder hp hholder hvalue htype

omit [DecidableEq K] [DecidableEq N] [DecidableEq L] in
theorem empty_eq (hm : m.Owned) {x : N} (hx : (m.held (some x)).isSome) :
    empty (some x) m = some ((contents m).value x).isNone := by
  obtain ⟨p, hp⟩ := Option.isSome_iff_exists.mp hx
  cases p with
  | none => simp [empty, hp, Variables.value, contents, Holdings.values_of_held hp]
  | some p =>
    obtain ⟨holder, hholder⟩ := Option.isSome_iff_exists.mp (hm.live (some x) p hp)
    simp [empty, hp, Variables.value, contents, Holdings.values_of_held hp, hholder]

omit [DecidableEq N] [DecidableEq L] in
theorem cast_eq (hm : m.Owned) {x : N} (hx : (m.held (some x)).isSome) (k : K) :
    cast getTypename k (some x) m = some ((contents m).cast getTypename k x) := by
  unfold cast
  rw [empty_eq hm hx]
  cases found hm hx k with
  | noValue held value => simp [Variables.cast, value]
  | otherType p holder held cell value type =>
    simp [castPointer, Variables.cast, held, cell, value, type, ValueHolder.as_of_ne type]
  | ofType p t held cell value => simp [castPointer, deref, Variables.cast, held, cell, value]

/-- Every cell in use has one owner, and no temporary is left. -/
structure Inv (m : Memory T N L) : Prop where
  owned : m.Owned
  temporary : m.held none = none

section

omit [DecidableEq K] [DecidableEq L]

/-- A change of the named variables, as the variables see it. -/
theorem contents_of_update {m' : Memory T N L} {x : N} {a : Option (Option (ValueHolder T))}
    (h : m'.values = Function.update m.values (some x) a) :
    contents m' = Function.update (contents m) x a := by
  funext y
  by_cases hy : y = x <;> simp [contents, h, hy]

theorem contents_of_update₂ {m' : Memory T N L} {x y : N}
    {a b : Option (Option (ValueHolder T))}
    (h : m'.values = Function.update (Function.update m.values (some x) a) (some y) b) :
    contents m' = Function.update (Function.update (contents m) x a) y b := by
  funext z
  by_cases hy : z = y
  · simp [contents, h, hy]
  · by_cases hx : z = x
    · subst hx; simp [contents, h, hy]
    · simp [contents, h, hx, hy]

end

/-- What a step has to do: it has an outcome, it answers what the variables
would, and it leaves the variables as they would be. -/
structure Right (m : Memory T N L) (request : Request T N L) : Prop where
  answer : (step getTypename m request).1 =
    some (Variables.step getTypename (contents m) request).1
  next : contents (step getTypename m request).2 =
    (Variables.step getTypename (contents m) request).2
  inv : Inv (step getTypename m request).2

variable {getTypename}

/-- A step that changes one variable. -/
theorem right_of_update (hm : Inv m) {request : Request T N L} {result : Option (Memory T N L)}
    {x : N} {a : Option (Option (ValueHolder T))}
    (hstep : step getTypename m request = act m result)
    (hresult : Yields result (Function.update m.values (some x) a))
    (hspec : Variables.step getTypename (contents m) request =
      (.done, Function.update (contents m) x a)) : Right getTypename m request := by
  obtain ⟨m', rfl, howned, hvalues⟩ := hresult
  refine ⟨by rw [hstep, hspec]; rfl, ?_, ?_⟩
  · rw [hstep, hspec]
    exact contents_of_update hvalues
  · rw [hstep]
    refine ⟨howned, Holdings.values_eq_none.mp ?_⟩
    simp [act, hvalues, hm.temporary]

/-- A step that changes two. -/
theorem right_of_update₂ (hm : Inv m) {request : Request T N L} {result : Option (Memory T N L)}
    {x y : N} {a b : Option (Option (ValueHolder T))}
    (hstep : step getTypename m request = act m result)
    (hresult : Yields result
      (Function.update (Function.update m.values (some x) a) (some y) b))
    (hspec : Variables.step getTypename (contents m) request =
      (.done, Function.update (Function.update (contents m) x a) y b)) :
    Right getTypename m request := by
  obtain ⟨m', rfl, howned, hvalues⟩ := hresult
  refine ⟨by rw [hstep, hspec]; rfl, ?_, ?_⟩
  · rw [hstep, hspec]
    exact contents_of_update₂ hvalues
  · rw [hstep]
    refine ⟨howned, Holdings.values_eq_none.mp ?_⟩
    simp [act, hvalues, hm.temporary]

/-- A step that changes nothing. -/
theorem right_of_query (hm : Inv m) {request : Request T N L} (reply : Reply T)
    (hstep : step getTypename m request = (some reply, m))
    (hspec : Variables.step getTypename (contents m) request = (reply, contents m)) :
    Right getTypename m request :=
  ⟨by rw [hstep, hspec], by rw [hstep, hspec], by rw [hstep]; exact hm⟩

variable (getTypename) in
/-- **One step**: what it does to the `Any`s is what it means for the variables. -/
theorem step_right (hm : Inv m) {request : Request T N L} (h : Scoped m request) :
    Right getTypename m request := by
  cases request with
  | construct x => exact right_of_update hm rfl (construct_yields hm.owned h) rfl
  | constructValue x l value =>
    exact right_of_update hm rfl (constructValue_yields hm.owned value h.1 h.2) rfl
  | constructCopy x any l =>
    exact right_of_update hm rfl (constructCopy_yields hm.owned h.1 h.2.1 h.2.2) rfl
  | constructMove x any =>
    exact right_of_update₂ hm rfl (constructMove_yields hm.owned h.1 h.2) rfl
  | destroy x => exact right_of_update hm rfl (destroy_yields hm.owned h) rfl
  | swap x any => exact right_of_update₂ hm rfl (swap_yields hm.owned h.1 h.2) rfl
  | assignValue x l value =>
    exact right_of_update hm rfl
      (assign_yields (constructValue_yields hm.owned value hm.temporary h.2) h.1 hm.temporary) rfl
  | assignCopy x any l =>
    have hany : m.values (some any) = some ((contents m).value any) := by
      obtain ⟨p, hp⟩ := Option.isSome_iff_exists.mp h.2.1
      simp [Variables.value, contents, Holdings.values_of_held hp]
    have hcopy := constructCopy_yields hm.owned hm.temporary h.2.1 h.2.2
    rw [hany] at hcopy
    refine right_of_update hm rfl (assign_yields hcopy h.1 hm.temporary) ?_
    rw [← hany]
    rfl
  | assignMove x any => exact right_of_update₂ hm rfl (swap_yields hm.owned h.1 h.2) rfl
  | empty x =>
    refine right_of_query hm _ ?_ rfl
    simp [step, empty_eq hm.owned h]
  | cast k x =>
    refine right_of_query hm _ ?_ rfl
    simp [step, cast_eq getTypename hm.owned h]
  | read k any =>
    refine right_of_query hm _ ?_ rfl
    cases any with
    | none => simp [step, castPointer]
    | some x =>
      cases found hm.owned h k with
      | noValue held value => simp [step, castPointer, held, value]
      | otherType p holder held cell value type =>
        simp [step, castPointer, held, cell, value, type, ValueHolder.as_of_ne type]
      | ofType p t held cell value => simp [step, castPointer, deref, held, cell, value]
  | write k x value =>
    cases found hm.owned h k with
    | noValue held hvalue =>
      refine right_of_query hm (.wrote false) ?_ ?_
      · simp [step, castPointer, held]
      · simp [Variables.step, hvalue]
    | otherType p holder held cell hvalue type =>
      refine right_of_query hm (.wrote false) ?_ ?_
      · simp [step, castPointer, held, cell, type]
      · simp [Variables.step, hvalue, ValueHolder.as_of_ne type]
    | ofType p t held cell hvalue =>
      have hstep : step getTypename m (.write k x value) =
          (some (.wrote true), m.overwrite p ⟨k, value⟩) := by
        simp [step, castPointer, store, deref, held, cell, Holdings.overwrite]
      have hspec : Variables.step getTypename (contents m)
          (.write k x value : Request T N L) =
          (.wrote true, Function.update (contents m) x (some (some ⟨k, value⟩))) := by
        simp [Variables.step, hvalue]
      refine ⟨by rw [hstep, hspec], ?_, ?_⟩
      · rw [hstep, hspec]
        exact contents_of_update (Holdings.values_overwrite hm.owned ⟨k, value⟩ held)
      · rw [hstep]
        exact ⟨Holdings.owned_overwrite hm.owned ⟨k, value⟩ held, hm.temporary⟩

/-! ## §4 Runs -/

omit [DecidableEq K] [DecidableEq N] [DecidableEq L] in
theorem inv_empty : Inv (Holdings.empty : Memory T N L) := ⟨Holdings.owned_empty, rfl⟩

theorem inv_after (hm : Inv m) {program : List (Request T N L)}
    (h : (step getTypename).Along Scoped m program) :
    Inv ((step getTypename).after m program) :=
  Machine.inv_along Inv (fun _ _ hs hscoped => (step_right _ hs hscoped).inv) hm h

theorem outputs_eq (hm : Inv m) {program : List (Request T N L)}
    (h : (step getTypename).Along Scoped m program) :
    (step getTypename).outputs m program =
      ((Variables.step getTypename).outputs (contents m) program).map some := by
  induction program generalizing m with
  | nil => rfl
  | cons request program ih =>
    have hright := step_right getTypename hm h.1
    rw [Machine.outputs_cons, Machine.outputs_cons, List.map_cons, hright.answer,
      ih hright.inv h.2, hright.next]

/-- **An `Any` is a value.**  In every run of a program that uses its `Any`s while
they are alive, wherever `new` puts what it makes, nothing is deleted twice or
used after it was deleted: every step has an outcome, and answers what it would
answer if each `Any` were a variable with a value of its own. And nothing is
lost: whatever is in use is the holder of exactly one `Any`. -/
theorem any_is_a_value {program : List (Request T N L)}
    (h : (step getTypename).Along Scoped Holdings.empty program) :
    (step getTypename).outputs Holdings.empty program =
      ((Variables.step getTypename).outputs (fun _ => none) program).map some ∧
    ∀ l, (((step getTypename).after Holdings.empty program).cell l).isSome ↔
      ∃! x, ((step getTypename).after Holdings.empty program).held (some x) = some (some l) := by
  refine ⟨outputs_eq inv_empty h, fun l => ?_⟩
  have hinv := inv_after inv_empty h
  constructor
  · intro hl
    obtain ⟨x, hx, hunique⟩ := hinv.owned.existsUnique hl
    cases x with
    | none => simp [hinv.temporary] at hx
    | some x => exact ⟨x, hx, fun y hy => Option.some.inj (hunique (some y) hy)⟩
  · rintro ⟨x, hx, -⟩
    exact hinv.owned.live (some x) l hx

/-- Two types: numbers and truth values. -/
abbrev numberOrTruth : Bool → Type
  | true => Nat
  | false => Bool

/-- A number is copied, the copy is written to, and both go different ways. -/
def copied : List (Request numberOrTruth Nat Nat) :=
  [.constructValue 0 7 ⟨true, (5 : Nat)⟩, .constructCopy 1 0 8, .write true 1 (6 : Nat),
    .assignCopy 0 0 9, .cast true 0, .assignMove 0 1, .cast true 0, .cast false 1, .destroy 1]

/-- The step function of `copied`. -/
abbrev copiedStep : Machine (Memory numberOrTruth Nat Nat) (Request numberOrTruth Nat Nat)
    (Option (Reply numberOrTruth)) :=
  step fun k => Text.ofString (if k then "unsigned long" else "bool")

theorem any_is_a_value_copied :
    copiedStep.outputs Holdings.empty copied =
      ((Variables.step fun k => Text.ofString (if k then "unsigned long" else "bool")).outputs
        (fun _ => none) copied).map some ∧
    ∀ l, ((copiedStep.after Holdings.empty copied).cell l).isSome ↔
      ∃! x, (copiedStep.after Holdings.empty copied).held (some x) = some (some l) :=
  any_is_a_value (by decide)

/-! ## §5 Pointers -/

/-- The step destroys the `Any` that holds this, or gives it another value. A
move, a swap and a value written through a pointer do not. -/
def Ends (l : L) (m : Memory T N L) : Request T N L → Prop
  | .destroy x | .assignValue x _ _ | .assignCopy x _ _ => m.held (some x) = some (some l)
  | _ => False

instance (l : L) (m : Memory T N L) : DecidablePred (Ends l m)
  | .destroy x | .assignValue x _ _ | .assignCopy x _ _ =>
    inferInstanceAs (Decidable (m.held (some x) = some (some l)))
  | .construct _ | .constructValue _ _ _ | .constructCopy _ _ _ | .constructMove _ _
  | .swap _ _ | .assignMove _ _ | .empty _ | .cast _ _ | .read _ _ | .write _ _ _ =>
    inferInstanceAs (Decidable False)

/-- Nothing in use is changed, and no other `Any` than `x`. -/
structure Keeps (x : Option N) (m m' : Memory T N L) : Prop where
  held : ∀ y, y ≠ x → m'.held y = m.held y
  cell : ∀ l, (m.cell l).isSome → m'.cell l = m.cell l

section

omit [DecidableEq K]

omit [DecidableEq L] in
theorem start_keeps {m' : Memory T N L} {x : Option N} {p : Option L}
    (h : start x p m = some m') : Keeps x m m' := by
  unfold start at h
  split at h
  · cases h
    exact ⟨fun y hy => Function.update_of_ne hy _ _, fun _ _ => rfl⟩
  · cases h

theorem constructValue_keeps {m' : Memory T N L} {x : Option N} {l : L} {value : ValueHolder T}
    (h : constructValue x l value m = some m') : Keeps x m m' := by
  obtain ⟨m₁, hnew, hstart⟩ := Option.bind_eq_some_iff.mp h
  have hkeeps := start_keeps hstart
  unfold new at hnew
  split at hnew
  · rename_i hfree
    cases hnew
    refine ⟨hkeeps.held, fun k hk => ?_⟩
    -- what was in use is not what `new` gave
    have hne : k ≠ l := by
      rintro rfl
      simp [hfree] at hk
    have hcell : Function.update m.cell l (some value) k = m.cell k :=
      Function.update_of_ne hne _ _
    rw [hkeeps.cell k (by simpa [hcell] using hk)]
    exact hcell
  · cases hnew

theorem constructCopy_keeps {m' : Memory T N L} {x any : Option N} {l : L}
    (h : constructCopy x any l m = some m') : Keeps x m m' := by
  obtain ⟨p, hp, h⟩ := Option.bind_eq_some_iff.mp h
  cases p with
  | none => exact start_keeps h
  | some p =>
    obtain ⟨holder, -, h⟩ := Option.bind_eq_some_iff.mp h
    exact constructValue_keeps h

omit [DecidableEq L] in
theorem swap_cell {m' : Memory T N L} {x any : Option N} (h : swap x any m = some m') :
    m'.cell = m.cell := by
  obtain ⟨p, -, h⟩ := Option.bind_eq_some_iff.mp h
  obtain ⟨q, -, h⟩ := Option.bind_eq_some_iff.mp h
  cases h
  rfl

theorem destroy_cell {m' : Memory T N L} {x : Option N} (h : destroy x m = some m') (l : L) :
    m'.cell l = if m.held x = some (some l) then none else m.cell l := by
  obtain ⟨p, hp, h⟩ := Option.bind_eq_some_iff.mp h
  obtain ⟨m₁, hdelete, h⟩ := Option.bind_eq_some_iff.mp h
  cases h
  cases p with
  | none =>
    cases hdelete
    simp [hp]
  | some k =>
    unfold delete at hdelete
    dsimp only at hdelete
    split at hdelete
    · cases hdelete
    · cases hdelete
      by_cases hkl : l = k
      · simp [hp, hkl]
      · simp [hp, hkl, Ne.symm hkl]

theorem assign_cell {m' : Memory T N L} {temporary : Option (Memory T N L)} {x : N}
    (h : (do let m ← temporary; let m ← swap none (some x) m; destroy none m) = some m')
    (htemporary : ∀ m₁, temporary = some m₁ → Keeps none m m₁) {l : L}
    (hl : (m.cell l).isSome) :
    m'.cell l = if m.held (some x) = some (some l) then none else m.cell l := by
  obtain ⟨m₁, htemp, h⟩ := Option.bind_eq_some_iff.mp h
  obtain ⟨m₂, hswap, hdestroy⟩ := Option.bind_eq_some_iff.mp h
  have hkeeps := htemporary m₁ htemp
  have hheld : m₂.held none = m.held (some x) := by
    rw [← hkeeps.held (some x) (by simp)]
    obtain ⟨p, hp, hswap⟩ := Option.bind_eq_some_iff.mp hswap
    obtain ⟨q, hq, hswap⟩ := Option.bind_eq_some_iff.mp hswap
    cases hswap
    simp [hq]
  rw [destroy_cell hdestroy, hheld, swap_cell hswap, hkeeps.cell l hl]

end

/-- A value of the type is in use there. -/
def InUse (k : K) (l : L) (m : Memory T N L) : Prop := ∃ value : T k, m.cell l = some ⟨k, value⟩

section

omit [DecidableEq K] [DecidableEq N] [DecidableEq L]

theorem inUse_of_cell {m' : Memory T N L} {k : K} {l : L} (hl : InUse k l m)
    (h : m'.cell l = m.cell l) : InUse k l m' := by
  obtain ⟨value, hvalue⟩ := hl
  exact ⟨value, h.trans hvalue⟩

theorem isSome_of_inUse {k : K} {l : L} (hl : InUse k l m) : (m.cell l).isSome := by
  obtain ⟨value, hvalue⟩ := hl
  simp [hvalue]

theorem inUse_iff_of_cell {m' : Memory T N L} {k : K} {l : L} (hl : InUse k l m) {p : Prop}
    [Decidable p] (h : m'.cell l = if p then none else m.cell l) : InUse k l m' ↔ ¬ p := by
  by_cases hp : p
  · simp [InUse, h, hp]
  · rw [if_neg hp] at h
    exact iff_of_true (inUse_of_cell hl h) hp

theorem act_next {result : Option (Memory T N L)} {reply : Reply T}
    (h : (act m result).1 = some reply) : result = some (act m result).2 := by
  cases result with
  | none => cases h
  | some m' => rfl

end

theorem step_inUse (hm : Inv m) {request : Request T N L} (h : Scoped m request) {k : K} {l : L}
    (hl : InUse k l m) : InUse k l (step getTypename m request).2 ↔ ¬ Ends l m request := by
  have hanswer := (step_right getTypename hm h).answer
  have hsome := isSome_of_inUse hl
  cases request with
  | construct x =>
    have hkeeps := start_keeps (act_next hanswer)
    exact iff_of_true (inUse_of_cell hl (hkeeps.cell l hsome)) not_false
  | constructValue x l' value =>
    have hkeeps := constructValue_keeps (act_next hanswer)
    exact iff_of_true (inUse_of_cell hl (hkeeps.cell l hsome)) not_false
  | constructCopy x any l' =>
    have hkeeps := constructCopy_keeps (act_next hanswer)
    exact iff_of_true (inUse_of_cell hl (hkeeps.cell l hsome)) not_false
  | constructMove x any =>
    obtain ⟨m₁, hstart, hswap⟩ := Option.bind_eq_some_iff.mp (act_next hanswer)
    have hcell := (congrFun (swap_cell hswap) l).trans ((start_keeps hstart).cell l hsome)
    exact iff_of_true (inUse_of_cell hl hcell) not_false
  | destroy x =>
    have hcell := destroy_cell (act_next hanswer) l
    have hiff := inUse_iff_of_cell hl hcell
    exact hiff
  | swap x any =>
    have hcell := congrFun (swap_cell (act_next hanswer)) l
    exact iff_of_true (inUse_of_cell hl hcell) not_false
  | assignValue x l' value =>
    have hcell := assign_cell (act_next hanswer) (fun _ => constructValue_keeps) hsome
    have hiff := inUse_iff_of_cell hl hcell
    exact hiff
  | assignCopy x any l' =>
    have hcell := assign_cell (act_next hanswer) (fun _ => constructCopy_keeps) hsome
    have hiff := inUse_iff_of_cell hl hcell
    exact hiff
  | assignMove x any =>
    have hcell := congrFun (swap_cell (act_next hanswer)) l
    exact iff_of_true (inUse_of_cell hl hcell) not_false
  | empty x => exact iff_of_true hl not_false
  | cast k' x => exact iff_of_true hl not_false
  | read k' any => exact iff_of_true hl not_false
  | write k' x value =>
    refine iff_of_true ?_ not_false
    cases found hm.owned h k' with
    | noValue held hvalue => simpa [step, castPointer, held] using hl
    | otherType p holder held cell hvalue type =>
      simpa [step, castPointer, held, cell, type] using hl
    | ofType p t held cell hvalue =>
      by_cases hlp : l = p
      · subst hlp
        obtain ⟨t', ht'⟩ := hl
        have hk : k' = k := congrArg ValueHolder.type (Option.some.inj (cell.symm.trans ht'))
        subst hk
        exact ⟨value, by simp [step, castPointer, store, deref, held, cell]⟩
      · refine inUse_of_cell hl ?_
        simp [step, castPointer, store, deref, held, cell, hlp]

omit [DecidableEq N] [DecidableEq L] in
/-- A pointer that some `any_cast` returns is the place of a value in use. -/
theorem castPointer_iff (hm : Inv m) {k : K} {l : L} :
    (∃ x, castPointer k (some (some x)) m = some (some l)) ↔ InUse k l m := by
  constructor
  · rintro ⟨x, hx⟩
    have halive : (m.held (some x)).isSome := by
      cases hheld : m.held (some x) with
      | none => simp [castPointer, hheld] at hx
      | some p => rfl
    cases found hm.owned halive k with
    | noValue held value => simp [castPointer, held] at hx
    | otherType p holder held cell value type => simp [castPointer, held, cell, type] at hx
    | ofType p t held cell value =>
      have hpl : p = l := by simpa [castPointer, held, cell] using hx
      exact ⟨t, hpl ▸ cell⟩
  · rintro ⟨t, ht⟩
    obtain ⟨x, hx⟩ := hm.owned.kept l (by simp [ht])
    cases x with
    | none => simp [hm.temporary] at hx
    | some x => exact ⟨x, by simp [castPointer, hx, ht]⟩

/-- **How long a pointer can be used.**  After any run, take a pointer that
`any_cast<T>(&any)` returned, and go on. The pointer refers to a `T` in use, the
one that `any_cast<T>` still finds in some `Any`, all through the rest of the run
exactly when no step of it destroys the `Any` that has the value at that time, or
assigns to it other than by a move. -/
theorem pointer_stays_good {program rest : List (Request T N L)} {k : K} {x : N} {l : L}
    (h : (step getTypename).Along Scoped Holdings.empty (program ++ rest))
    (hpointer : castPointer k (some (some x)) ((step getTypename).after Holdings.empty program) =
      some (some l)) :
    (∀ front, front <+: rest → ∃ y, castPointer k (some (some y))
        ((step getTypename).after Holdings.empty (program ++ front)) = some (some l)) ↔
      (step getTypename).Along (fun m request => ¬ Ends l m request)
        ((step getTypename).after Holdings.empty program) rest := by
  obtain ⟨hprogram, hrest⟩ := Machine.along_append.mp h
  have hinv := inv_after inv_empty hprogram
  have hinuse := (castPointer_iff hinv).mp ⟨x, hpointer⟩
  rw [← Machine.forall_states_iff_along Inv (fun _ _ hs hok => (step_right _ hs hok).inv)
    (fun _ _ hs hok hP => step_inUse hs hok hP) hinv hinuse hrest]
  refine forall₂_congr fun front hfront => ?_
  rw [Machine.after_append]
  exact castPointer_iff (inv_after hinv (Machine.along_left hfront hrest))

/-- A pointer to a number that is moved, and the `Any` it was in destroyed. -/
theorem pointer_stays_good_moved :
    (∀ front, front <+: [.constructMove 1 0, .destroy 0, .write true 1 (6 : Nat)] →
      ∃ y, castPointer true (some (some y)) (copiedStep.after Holdings.empty
        ([.constructValue 0 7 ⟨true, (5 : Nat)⟩] ++ front)) = some (some 7)) ↔
      copiedStep.Along (fun m request => ¬ Ends 7 m request)
        (copiedStep.after Holdings.empty [.constructValue 0 7 ⟨true, (5 : Nat)⟩])
        [.constructMove 1 0, .destroy 0, .write true 1 (6 : Nat)] :=
  pointer_stays_good (x := 0) (by decide) (by decide)

end

end Acatl.Any
