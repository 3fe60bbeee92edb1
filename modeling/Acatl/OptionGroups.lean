/-
Acatl.OptionGroups — `OptionBase` and `OptionGroup` (`command_line_options.{h,cpp}`).

A group has a table with one entry of the argument parser for each of its
options, and an option has a pointer to its entry. The options are shared: a copy
of a group makes a table of its own for the same options, which from then on
point into it, and a group that is destroyed takes its table with it.

An entry is known by the group in whose table it is and by its place there. To
read through a pointer to an entry whose table is gone is undefined (`none`).
`_end` is left out of the tables: nothing reads it but `arg_print_errors`, and
what that prints belongs to what parsing gives (`Parsed`).

  §1  options, entries and groups;
  §2  what is asked of a group;
  §3  `made_table`, `made_arg`: what a new group consists of;
  §4  `option_usable_iff`: whether an option can be read after groups have been
      made, copied and destroyed in any order.
-/
import Acatl.Lib.Machine
import Acatl.SplitJoin

namespace Acatl.CommandLine

open Acatl.Lib
open StringHelper (cString)

/-! ## §1 Options, entries and groups -/

/-- `OptionBase`: a `TypedOption`, which has an argument, or a `LiteralOption`. -/
structure OptionBase where
  shortOpt : Text
  longOpt : Text
  min : Int
  max : Int
  desc : Text
  argument : Option Text
  deriving DecidableEq

/-- `arg_hdr`, as far as `arg_litn` and `arg_strn` are told what is in it. -/
structure ArgHdr where
  shortopts : Option Text
  longopts : Option Text
  datatype : Option Text
  glossary : Text
  mincount : Int
  maxcount : Int
  deriving DecidableEq

/-- `arg_str`, or `arg_lit`, which has no values. -/
structure Arg where
  hdr : ArgHdr
  count : Int
  sval : List Text
  deriving DecidableEq

/-- `arg_litn` and `arg_strn`. -/
def newArg (shortopts longopts datatype : Option Text) (mincount maxcount : Int)
    (glossary : Text) : Arg :=
  let maxcount := if maxcount < mincount then mincount else maxcount
  { hdr := ⟨shortopts, longopts, datatype, glossary, mincount, maxcount⟩
    count := 0
    sval := if datatype.isSome then List.replicate maxcount.toNat [] else [] }

/-- What `add` makes for an option. -/
def OptionBase.newArg (opt : OptionBase) : Arg :=
  CommandLine.newArg (if opt.shortOpt.length ≠ 0 then some (cString opt.shortOpt) else none)
    (if opt.longOpt.length ≠ 0 then some (cString opt.longOpt) else none)
    (opt.argument.map cString) opt.min opt.max (cString opt.desc)

/-- `BadOption`. -/
structure BadOption where
  message : Text
  deriving DecidableEq

/-- An `OptionGroup`; `argtable` is without `_end`. -/
structure Group (O : Type) where
  name : Text
  options : List O
  argtable : List Arg

/-- The place of an entry. -/
structure ArgPtr where
  group : Nat
  index : Nat
  deriving DecidableEq

/-- The groups alive, how many were made so far, and the `_arg` of every option,
which is its `_hdr` as well. -/
structure Memory (O : Type) where
  groups : Nat → Option (Group O) := fun _ => none
  next : Nat := 0
  arg : O → Option ArgPtr := fun _ => none

section

variable {O : Type} [DecidableEq O]
-- what the options were constructed with
variable (base : O → OptionBase)

/-- `OptionBase::add`, to the table of the group `g`. -/
def add (o : O) (g : Nat) (argtable : List Arg) (m : Memory O) : List Arg × Memory O :=
  (argtable ++ [(base o).newArg],
    { m with arg := Function.update m.arg o (some ⟨g, argtable.length⟩) })

/-- The loop of the constructors. -/
def addAll (g : Nat) : List O → List Arg → Memory O → List Arg × Memory O
  | [], argtable, m => (argtable, m)
  | o :: options, argtable, m =>
    let r := add base o g argtable m
    addAll g options r.1 r.2

/-- `OptionGroup(name, options)`. -/
def make (name : Text) (options : List O) (m : Memory O) : Nat × Memory O :=
  let g := m.next
  let r := addAll base g options [] { m with next := g + 1 }
  (g, { r.2 with groups := Function.update r.2.groups g (some ⟨name, options, r.1⟩) })

/-- `OptionGroup(const OptionGroup& rhs)`. -/
def copy (rhs : Nat) (m : Memory O) : Option (Nat × Memory O) := do
  let group ← m.groups rhs
  some (make base group.name group.options m)

/-- `~OptionGroup()`. -/
def destroy (g : Nat) (m : Memory O) : Option (Memory O) := do
  let _ ← m.groups g
  some { m with groups := Function.update m.groups g none }

/-- What `_arg` and `_hdr` of an option point to. -/
def argOf (o : O) (m : Memory O) : Option Arg := do
  let p ← m.arg o
  let group ← m.groups p.group
  group.argtable[p.index]?

/-! ## §2 What is asked of a group -/

/-- Whether an entry has the name. -/
def Arg.hasName (name : Text) (arg : Arg) : Bool :=
  arg.hdr.longopts == some name || arg.hdr.shortopts == some name

/-- Whether an entry has no name. -/
def Arg.untagged (arg : Arg) : Bool := arg.hdr.longopts.isNone && arg.hdr.shortopts.isNone

/-- The first option with the name. -/
def findNamed (name : Text) (m : Memory O) : List O → Option (Option O)
  | [] => some none
  | o :: options => do
    let arg ← argOf o m
    if arg.hasName name then some (some o) else findNamed name m options

/-- The untagged option with the index; `tmp` untagged ones were before. -/
def findUntagged (index : Int) (m : Memory O) : Int → List O → Option (Option O)
  | _, [] => some none
  | tmp, o :: options => do
    let arg ← argOf o m
    if arg.untagged then
      if tmp = index then some (some o) else findUntagged index m (tmp + 1) options
    else findUntagged index m tmp options

/-- `untaggedOptionsCount`. -/
def untaggedOptionsCount (m : Memory O) : List O → Option Int
  | [] => some 0
  | o :: options => do
    let arg ← argOf o m
    let count ← untaggedOptionsCount m options
    some (if arg.untagged then count + 1 else count)

/-! ## §3 What a new group consists of -/

theorem addAll_table (g : Nat) (options : List O) (argtable : List Arg) (m : Memory O) :
    (addAll base g options argtable m).1 = argtable ++ options.map fun o => (base o).newArg := by
  induction options generalizing argtable m with
  | nil => simp [addAll]
  | cons o options ih => simp [addAll, add, ih]

@[simp] theorem addAll_groups (g : Nat) (options : List O) (argtable : List Arg) (m : Memory O) :
    (addAll base g options argtable m).2.groups = m.groups := by
  induction options generalizing argtable m with
  | nil => rfl
  | cons o options ih => simp [addAll, add, ih]

@[simp] theorem addAll_next (g : Nat) (options : List O) (argtable : List Arg) (m : Memory O) :
    (addAll base g options argtable m).2.next = m.next := by
  induction options generalizing argtable m with
  | nil => rfl
  | cons o options ih => simp [addAll, add, ih]

theorem addAll_arg_of_not_mem (g : Nat) {options : List O} (argtable : List Arg) (m : Memory O)
    {o : O} (ho : o ∉ options) : (addAll base g options argtable m).2.arg o = m.arg o := by
  induction options generalizing argtable m with
  | nil => rfl
  | cons o' options ih =>
    obtain ⟨hne, hrest⟩ := not_or.mp (List.mem_cons.not.mp ho)
    rw [addAll, ih _ _ hrest]
    exact Function.update_of_ne hne _ _

/-- An option that comes more than once points to one of its entries. -/
theorem addAll_arg_of_mem (g : Nat) {options : List O} (argtable : List Arg) (m : Memory O)
    {o : O} (ho : o ∈ options) :
    ∃ i, options[i]? = some o ∧
      (addAll base g options argtable m).2.arg o = some ⟨g, argtable.length + i⟩ := by
  induction options generalizing argtable m with
  | nil => cases ho
  | cons o' options ih =>
    by_cases hrest : o ∈ options
    · obtain ⟨i, hi, harg⟩ := ih (argtable ++ [(base o').newArg])
        { m with arg := Function.update m.arg o' (some ⟨g, argtable.length⟩) } hrest
      refine ⟨i + 1, by simpa using hi, ?_⟩
      rw [addAll, add, harg, List.length_append, List.length_singleton]
      congr 2
      omega
    · obtain rfl : o = o' := (List.mem_cons.mp ho).resolve_right hrest
      refine ⟨0, rfl, ?_⟩
      rw [addAll, addAll_arg_of_not_mem base g _ _ hrest]
      exact Function.update_self _ _ _

/-- What a group is when it is new. -/
def newGroup (name : Text) (options : List O) : Group O :=
  ⟨name, options, options.map fun o => (base o).newArg⟩

@[simp] theorem make_fst (name : Text) (options : List O) (m : Memory O) :
    (make base name options m).1 = m.next := rfl

@[simp] theorem make_next (name : Text) (options : List O) (m : Memory O) :
    (make base name options m).2.next = m.next + 1 := by
  simp [make]

@[simp] theorem make_groups (name : Text) (options : List O) (m : Memory O) :
    (make base name options m).2.groups =
      Function.update m.groups m.next (some (newGroup base name options)) := by
  simp [make, newGroup, addAll_table]

theorem make_arg_of_not_mem (name : Text) {options : List O} (m : Memory O) {o : O}
    (ho : o ∉ options) : (make base name options m).2.arg o = m.arg o :=
  addAll_arg_of_not_mem base m.next [] { m with next := m.next + 1 } ho

theorem make_arg_of_mem (name : Text) {options : List O} (m : Memory O) {o : O}
    (ho : o ∈ options) :
    ∃ i, options[i]? = some o ∧ (make base name options m).2.arg o = some ⟨m.next, i⟩ := by
  obtain ⟨i, hi, harg⟩ :=
    addAll_arg_of_mem base m.next [] { m with next := m.next + 1 } ho
  exact ⟨i, hi, by simpa [make] using harg⟩

/-! ## §4 Groups made, copied and destroyed -/

/-- What happens to groups. -/
inductive GroupOp (O : Type) where
  | make (name : Text) (options : List O)
  | copy (rhs : Nat)
  | destroy (g : Nat)

/-- What comes of it: a new group with its options, one less, or nothing that
could be said. -/
inductive GroupAnswer (O : Type) where
  | made (g : Nat) (options : List O)
  | destroyed
  | undefined

/-- One step. -/
def groupStep : Machine (Memory O) (GroupOp O) (GroupAnswer O) := fun m op =>
  match op with
  | .make name options =>
    let r := make base name options m
    (.made r.1 options, r.2)
  | .copy rhs =>
    match m.groups rhs, copy base rhs m with
    | some group, some r => (.made r.1 group.options, r.2)
    | _, _ => (.undefined, m)
  | .destroy g =>
    match destroy g m with
    | none => (.undefined, m)
    | some m' => (.destroyed, m')

/-- The group with the option that was made last, by what came of the steps. -/
def lastMade (o : O) (answers : List (GroupAnswer O)) : Option Nat :=
  answers.foldl
    (fun last answer =>
      match answer with
      | .made g options => if o ∈ options then some g else last
      | .destroyed | .undefined => last) none

variable {base}

/-- What the pointers of the options are, by what was made so far. -/
structure Traced (answers : List (GroupAnswer O)) (m : Memory O) : Prop where
  group : ∀ g group, m.groups g = some group →
    g < m.next ∧ group.argtable.length = group.options.length
  unmade : ∀ o, lastMade o answers = none → m.arg o = none
  pointer : ∀ o g, lastMade o answers = some g → g < m.next ∧ ∃ i, m.arg o = some ⟨g, i⟩ ∧
    ∀ group, m.groups g = some group → group.options[i]? = some o

theorem traced_make {answers : List (GroupAnswer O)} {m : Memory O} (h : Traced answers m)
    (name : Text) (options : List O) :
    Traced (answers ++ [.made m.next options]) (make base name options m).2 where
  group := by
    intro g group hg
    rw [make_groups] at hg
    by_cases hnew : g = m.next
    · subst hnew
      obtain rfl : newGroup base name options = group := by simpa using hg
      simp [newGroup]
    · rw [Function.update_of_ne hnew] at hg
      obtain ⟨hlt, hlen⟩ := h.group g group hg
      exact ⟨by rw [make_next]; omega, hlen⟩
  unmade := by
    intro o hlast
    by_cases ho : o ∈ options
    · simp [lastMade, ho] at hlast
    · rw [make_arg_of_not_mem base name m ho]
      exact h.unmade o (by simpa [lastMade, ho] using hlast)
  pointer := by
    intro o g hlast
    rw [make_next]
    by_cases ho : o ∈ options
    · obtain rfl : m.next = g := by simpa [lastMade, ho] using hlast
      obtain ⟨i, hi, harg⟩ := make_arg_of_mem base name m ho
      refine ⟨by omega, i, harg, ?_⟩
      intro group hgroup
      obtain rfl : newGroup base name options = group := by simpa using hgroup
      exact hi
    · obtain ⟨hlt, i, harg, hplace⟩ := h.pointer o g (by simpa [lastMade, ho] using hlast)
      refine ⟨by omega, i, by rw [make_arg_of_not_mem base name m ho, harg], ?_⟩
      intro group hgroup
      rw [make_groups, Function.update_of_ne (by omega)] at hgroup
      exact hplace group hgroup

theorem traced_destroy {answers : List (GroupAnswer O)} {m : Memory O} (h : Traced answers m)
    (g : Nat) : Traced (answers ++ [.destroyed])
      { m with groups := Function.update m.groups g none } where
  group := by
    intro g' group hg'
    by_cases hgone : g' = g
    · simp [hgone] at hg'
    · exact h.group g' group (by simpa [hgone] using hg')
  unmade := by
    intro o hlast
    exact h.unmade o (by simpa [lastMade] using hlast)
  pointer := by
    intro o g' hlast
    obtain ⟨hlt, i, harg, hplace⟩ := h.pointer o g' (by simpa [lastMade] using hlast)
    refine ⟨hlt, i, harg, fun group hgroup => ?_⟩
    by_cases hgone : g' = g
    · simp [hgone] at hgroup
    · exact hplace group (by simpa [hgone] using hgroup)

theorem traced_undefined {answers : List (GroupAnswer O)} {m : Memory O} (h : Traced answers m) :
    Traced (answers ++ [.undefined]) m where
  group := h.group
  unmade := fun o hlast => h.unmade o (by simpa [lastMade] using hlast)
  pointer := fun o g hlast => h.pointer o g (by simpa [lastMade] using hlast)

/-- One step, and what came of it. -/
theorem traced_step {answers : List (GroupAnswer O)} {m : Memory O} (h : Traced answers m)
    (op : GroupOp O) :
    Traced (answers ++ [(groupStep base m op).1]) (groupStep base m op).2 := by
  cases op with
  | make name options => exact traced_make h name options
  | copy rhs =>
    cases hgroup : m.groups rhs with
    | none => simpa [groupStep, hgroup] using traced_undefined h
    | some group =>
      simpa [groupStep, copy, hgroup] using @traced_make _ _ base _ _ h group.name group.options
  | destroy g =>
    cases hgroup : m.groups g with
    | none => simpa [groupStep, destroy, hgroup] using traced_undefined h
    | some group => simpa [groupStep, destroy, hgroup] using traced_destroy h g

theorem traced_after (ops : List (GroupOp O)) :
    Traced ((groupStep base).outputs {} ops) ((groupStep base).after {} ops) := by
  induction ops using List.reverseRecOn with
  | nil =>
    exact ⟨by simp, by simp, by simp [lastMade]⟩
  | append_singleton ops op ih =>
    rw [Machine.outputs_append, Machine.after_append]
    exact traced_step ih op

/-- What is read of an option whose last group is alive. -/
theorem Traced.argOf_eq {answers : List (GroupAnswer O)} {m : Memory O} (h : Traced answers m)
    {o : O} {g : Nat} {group : Group O} (hlast : lastMade o answers = some g)
    (hgroup : m.groups g = some group) :
    ∃ i : Nat, group.options[i]? = some o ∧ ∃ arg, group.argtable[i]? = some arg ∧
      argOf o m = some arg := by
  obtain ⟨-, i, harg, hplace⟩ := h.pointer o g hlast
  have hi := hplace group hgroup
  have hlt : i < group.argtable.length := by
    rw [(h.group g group hgroup).2]
    exact (List.getElem?_eq_some_iff.mp hi).1
  refine ⟨i, hi, group.argtable[i], List.getElem?_eq_getElem hlt, ?_⟩
  simp [argOf, harg, hgroup, hlt]

/-- **Whether an option can be used.**  Make, copy and destroy groups in any
order, with any options in common: an option can be read afterwards exactly when
the group with that option that was made last is still alive, no matter which
others are. What is read is then the entry that this group has for it. -/
theorem option_usable_iff (ops : List (GroupOp O)) (o : O) :
    ((argOf o ((groupStep base).after {} ops)).isSome ↔
      ∃ g, lastMade o ((groupStep base).outputs {} ops) = some g ∧
        (((groupStep base).after {} ops).groups g).isSome) ∧
    ∀ g group, lastMade o ((groupStep base).outputs {} ops) = some g →
      ((groupStep base).after {} ops).groups g = some group →
      ∃ i : Nat, group.options[i]? = some o ∧
        argOf o ((groupStep base).after {} ops) = group.argtable[i]? := by
  have htraced := @traced_after _ _ base ops
  refine ⟨⟨?_, ?_⟩, ?_⟩
  · intro hread
    cases hlast : lastMade o ((groupStep base).outputs {} ops) with
    | none => simp [argOf, htraced.unmade o hlast] at hread
    | some g =>
      obtain ⟨-, i, harg, -⟩ := htraced.pointer o g hlast
      refine ⟨g, rfl, ?_⟩
      cases hgroup : ((groupStep base).after {} ops).groups g with
      | none => simp [argOf, harg, hgroup] at hread
      | some group => rfl
  · rintro ⟨g, hlast, halive⟩
    obtain ⟨group, hgroup⟩ := Option.isSome_iff_exists.mp halive
    obtain ⟨i, -, arg, -, hread⟩ := htraced.argOf_eq hlast hgroup
    simp [hread]
  · intro g group hlast hgroup
    obtain ⟨i, hi, arg, hentry, hread⟩ := htraced.argOf_eq hlast hgroup
    exact ⟨i, hi, hread.trans hentry.symm⟩

end

end Acatl.CommandLine
