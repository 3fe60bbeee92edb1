/-
Acatl.CommandLineOptions — `CommandLineOptions` (`command_line_options.{h,cpp}`).

The constructor copies the groups it is given into a vector, which copies them
again when it grows; with every copy the options point to another table. The
vector constructs what is added first, then copies what it has, then destroys
that, as the standard libraries in use do. How much it grows is left open.

Of the argument parser nothing is said but that it leaves the headers of the
entries as they are, and that what it prints depends on what it has parsed
(`Argtable`). Printing the usage is left out.

  §1  the vector and the constructor;
  §2  `parse` and what can be asked afterwards;
  §3  `Lists`: the same with lists of entries instead of pointers;
  §4  one request;
  §5  the constructor;
  §6  `options_read_own_tables`: what is asked of the options is asked of the
      group that was parsed.
-/
import Mathlib.Data.List.Forall2
import Mathlib.Data.List.Nodup
import Acatl.OptionGroups

namespace Acatl.CommandLine

open Acatl.Lib
open StringHelper (cString)

/-- What `arg_parse` leaves, and what `arg_print_errors` then prints for a program. -/
structure Parsed where
  nerrors : Nat
  args : List Arg
  errors : Text → Text

/-- The argument parser. -/
structure Argtable where
  parse : List Text → List Arg → Parsed
  headers : ∀ argv args, (parse argv args).args.map Arg.hdr = args.map Arg.hdr

/-- `CommandLineOptions`; the groups of the vector and `_activeGroup` by what they
are known by in the memory. -/
structure CommandLineOptions where
  program : Text
  options : List Nat
  capacity : Nat
  activeGroup : Option Nat

section

variable {O : Type} [DecidableEq O]
-- what the options were constructed with, and the capacity a full vector gets
variable (base : O → OptionBase) (grow : Nat → Nat)

/-! ## §1 The vector and the constructor -/

/-- Copies of some groups, in their order. -/
def copyAll : List Nat → Memory O → Option (List Nat × Memory O)
  | [], m => some ([], m)
  | g :: gs, m => do
    let r ← copy base g m
    let rest ← copyAll gs r.2
    some (r.1 :: rest.1, rest.2)

/-- The end of some groups. -/
def destroyAll : List Nat → Memory O → Option (Memory O)
  | [], m => some m
  | g :: gs, m => do
    let m ← destroy g m
    destroyAll gs m

/-- `_options.push_back(group)`. -/
def pushBack (g : Nat) (c : CommandLineOptions) (m : Memory O) :
    Option (CommandLineOptions × Memory O) := do
  let new ← copy base g m
  if c.options.length < c.capacity then
    some ({ c with options := c.options ++ [new.1] }, new.2)
  else
    let moved ← copyAll base c.options new.2
    let m ← destroyAll c.options moved.2
    some ({ c with options := moved.1 ++ [new.1], capacity := grow c.capacity }, m)

/-- The loop of the constructor. -/
def pushAll : List Nat → CommandLineOptions → Memory O → Option (CommandLineOptions × Memory O)
  | [], c, m => some (c, m)
  | g :: gs, c, m => do
    let r ← pushBack base grow g c m
    pushAll gs r.1 r.2

/-- The groups that the caller lists. -/
def makeAll : List (Text × List O) → Memory O → List Nat × Memory O
  | [], m => ([], m)
  | (name, options) :: groups, m =>
    let r := make base name options m
    let rest := makeAll groups r.2
    (r.1 :: rest.1, rest.2)

/-- `CommandLineOptions options(program, groups)`, after which the groups that
the caller listed are gone. -/
def construct (program : Text) (groups : List (Text × List O)) :
    Option (CommandLineOptions × Memory O) := do
  let listed := makeAll base groups {}
  let r ← pushAll base grow listed.1 ⟨program, [], 0, none⟩ listed.2
  let m ← destroyAll listed.1 r.2
  some (r.1, m)

end

section

variable {O : Type} (base : O → OptionBase) (argtable : Argtable)

/-! ## §2 Parsing and lookups -/

/-- `OptionGroup::parse`, with what it writes to the stream. -/
def parseGroup (program : Text) (args : List Text) (g : Nat) (m : Memory O) :
    Option (Bool × Text × Memory O) := do
  let group ← m.groups g
  if args.isEmpty then
    some (false, [], m)
  else
    let r := argtable.parse (args.map cString) group.argtable
    let m :=
      { m with groups := Function.update m.groups g (some { group with argtable := r.args }) }
    if r.nerrors > 0 then some (false, r.errors (cString program), m)
    else some (true, [], m)

/-- The loop of `parse`; `ss` is what was written so far. -/
def parseGroups (program : Text) (args : List Text) :
    List Nat → Text → Memory O → Option (Option Nat × Text × Memory O)
  | [], ss, m => some (none, ss, m)
  | g :: gs, ss, m => do
    let (matched, text, m) ← parseGroup argtable program args g m
    if matched then some (some g, ss ++ text, m)
    else parseGroups program args gs (ss ++ text) m

/-- `CommandLineOptions::parse`, with what it writes to `errorStream`. -/
def parse (args : List Text) (c : CommandLineOptions) (m : Memory O) :
    Option (Bool × Text × CommandLineOptions × Memory O) :=
  if args.isEmpty then
    some (false, [], { c with activeGroup := none }, m)
  else do
    let (active, ss, m) ← parseGroups argtable c.program args c.options [] m
    some (active.isSome, if active.isSome then [] else ss, { c with activeGroup := active }, m)

/-- An option is asked for by its name or by its place among the untagged ones. -/
inductive Which where
  | named (name : Text)
  | untagged (index : Int)
  deriving DecidableEq

/-- The loops of `count` and `option`, for names and for indices. -/
def find (which : Which) (m : Memory O) (options : List O) : Option (Option O) :=
  match which with
  | .named name => findNamed name m options
  | .untagged index => findUntagged index m 0 options

/-- `OptionGroup::count`. -/
def countOf (which : Which) (g : Nat) (m : Memory O) : Option Int := do
  let group ← m.groups g
  match ← find which m group.options with
  | none => some 0
  | some o =>
    let arg ← argOf o m
    some arg.count

def notFound (which : Which) : BadOption :=
  match which with
  | .named name => ⟨Text.ofString "Option '" ++ name ++ Text.ofString "' not found"⟩
  | .untagged index => ⟨Text.ofString "Untagged option with index '" ++
      Text.ofString (toString index) ++ Text.ofString "' not found"⟩

/-- `OptionGroup::option` and `untaggedOption`. -/
def optionOf (which : Which) (g : Nat) (m : Memory O) : Option (Except BadOption O) := do
  let group ← m.groups g
  match ← find which m group.options with
  | none => some (.error (notFound which))
  | some o => some (.ok o)

def indexOutOfRange : BadOption := ⟨Text.ofString "Index out of range"⟩

def wrongType : BadOption := ⟨Text.ofString "Option is not of correct type"⟩

/-- `TypedOption::value`; the index behind the last value is let through. -/
def Arg.value (idx : Int) (arg : Arg) : Option (Except BadOption Text) :=
  if idx > arg.count then some (.error indexOutOfRange)
  else if idx < 0 then none
  else do
    let text ← arg.sval[idx.toNat]?
    some (.ok text)

/-- `OptionWrapper::value`. -/
def valueOf (idx : Int) (o : O) (m : Memory O) : Option (Except BadOption Text) :=
  if (base o).argument.isNone then some (.error wrongType)
  else do
    let arg ← argOf o m
    arg.value idx

/-- What a program asks. -/
inductive Request where
  | parse (args : List Text)
  | count (which : Which)
  | untaggedOptionsCount
  | optionCount (which : Which)
  | optionValue (which : Which) (idx : Int)
  | groupName

/-- What it gets. -/
inductive Reply where
  | parsed (matched : Bool) (errorStream : Text)
  | count (n : Int)
  | text (text : Text)
  | thrown (exception : BadOption)
  deriving DecidableEq

def Reply.ofExcept {α : Type} (f : α → Reply) : Except BadOption α → Reply
  | .ok a => f a
  | .error exception => .thrown exception

def notParsed : BadOption :=
  ⟨Text.ofString "The commandline wasn't parsed or parsed with error"⟩

/-- What is asked of the group that was parsed. -/
def ask (request : Request) (g : Nat) (m : Memory O) : Option Reply :=
  match request with
  | .parse _ => none
  | .count which => do
    some (.count (← countOf which g m))
  | .untaggedOptionsCount => do
    let group ← m.groups g
    some (.count (← untaggedOptionsCount m group.options))
  | .optionCount which => do
    match ← optionOf which g m with
    | .error exception => some (.thrown exception)
    | .ok o =>
      let arg ← argOf o m
      some (.count arg.count)
  | .optionValue which idx => do
    match ← optionOf which g m with
    | .error exception => some (.thrown exception)
    | .ok o =>
      let value ← valueOf base idx o m
      some (.ofExcept .text value)
  | .groupName => do
    let group ← m.groups g
    some (.text group.name)

/-- One request. -/
def step : Machine (CommandLineOptions × Memory O) Request (Option Reply) := fun (c, m) request =>
  match request with
  | .parse args =>
    match parse argtable args c m with
    | none => (none, c, m)
    | some (matched, errors, c', m') => (some (.parsed matched errors), c', m')
  | request =>
    match c.activeGroup with
    | none => (some (.thrown notParsed), c, m)
    | some g => (ask base request g m, c, m)

/-! ## §3 The same without pointers -/

/-- A group with its options, each with its own entry. -/
structure Table (O : Type) where
  name : Text
  entries : List (O × Arg)

/-- The groups, and the place of the one that was parsed. -/
structure Lists (O : Type) where
  program : Text
  tables : List (Table O)
  active : Option Nat

namespace Table

/-- A group that nothing was parsed with yet. -/
def new (name : Text) (options : List O) : Table O :=
  ⟨name, options.map fun o => (o, (base o).newArg)⟩

/-- Parsing with one group. -/
def parse (program : Text) (args : List Text) (t : Table O) : Bool × Text × Table O :=
  let r := argtable.parse (args.map cString) (t.entries.map Prod.snd)
  (r.nerrors == 0, if r.nerrors > 0 then r.errors (cString program) else [],
    { t with entries := (t.entries.map Prod.fst).zip r.args })

/-- The entry that is asked for. -/
def find (which : Which) (t : Table O) : Option (O × Arg) :=
  match which with
  | .named name => t.entries.find? fun e => e.2.hasName name
  | .untagged index =>
    if index < 0 then none else (t.entries.filter fun e => e.2.untagged)[index.toNat]?

/-- What is asked of a group. -/
def ask (request : Request) (t : Table O) : Option Reply :=
  match request with
  | .parse _ => none
  | .count which => some (.count ((t.find which).elim 0 fun e => e.2.count))
  | .untaggedOptionsCount => some (.count (t.entries.filter fun e => e.2.untagged).length)
  | .optionCount which =>
    match t.find which with
    | none => some (.thrown (notFound which))
    | some e => some (.count e.2.count)
  | .optionValue which idx =>
    match t.find which with
    | none => some (.thrown (notFound which))
    | some e =>
      if (base e.1).argument.isNone then some (.thrown wrongType)
      else (e.2.value idx).map (.ofExcept .text)
  | .groupName => some (.text t.name)

end Table

namespace Lists

/-- The groups are tried one after the other, up to the first that matches. -/
def parseTables (program : Text) (args : List Text) :
    List (Table O) → Text → Option Nat × Text × List (Table O)
  | [], ss => (none, ss, [])
  | t :: tables, ss =>
    let r := t.parse argtable program args
    if r.1 then (some 0, ss, r.2.2 :: tables)
    else
      let rest := parseTables program args tables (ss ++ r.2.1)
      (rest.1.map (· + 1), rest.2.1, r.2.2 :: rest.2.2)

/-- **What the options are for**: parsing gives the place of the first group that
matches, and what is asked is asked of that one. -/
def step : Machine (Lists O) Request (Option Reply) := fun l request =>
  match request with
  | .parse args =>
    if args.isEmpty then (some (.parsed false []), { l with active := none })
    else
      let r := parseTables argtable l.program args l.tables []
      (some (.parsed r.1.isSome (if r.1.isSome then [] else r.2.1)),
        { l with tables := r.2.2, active := r.1 })
  | request =>
    match l.active.bind fun i => l.tables[i]? with
    | none => (some (.thrown notParsed), l)
    | some t => (t.ask base request, l)

end Lists

/-! ## §4 One request -/

/-- The group is in the memory, and each of its options points to its entry. -/
structure Stands (m : Memory O) (g : Nat) (t : Table O) : Prop where
  group : m.groups g = some ⟨t.name, t.entries.map Prod.fst, t.entries.map Prod.snd⟩
  arg : ∀ j e, t.entries[j]? = some e → m.arg e.1 = some ⟨g, j⟩

variable {base argtable}

theorem Stands.argOf_eq {m : Memory O} {g : Nat} {t : Table O} (h : Stands m g t) :
    ∀ e ∈ t.entries, argOf e.1 m = some e.2 := by
  intro e he
  obtain ⟨j, hj⟩ := List.mem_iff_getElem?.mp he
  simp [argOf, h.arg j e hj, h.group, hj]

theorem findNamed_eq (name : Text) {m : Memory O} {entries : List (O × Arg)}
    (h : ∀ e ∈ entries, argOf e.1 m = some e.2) :
    findNamed name m (entries.map Prod.fst) =
      some ((entries.find? fun e => e.2.hasName name).map Prod.fst) := by
  induction entries with
  | nil => rfl
  | cons e entries ih =>
    obtain ⟨he, hrest⟩ := List.forall_mem_cons.mp h
    rw [List.map_cons, findNamed, he, List.find?_cons]
    cases hname : e.2.hasName name with
    | true => simp [hname]
    | false => simpa [hname] using ih hrest

theorem findUntagged_eq (index : Int) {m : Memory O} {entries : List (O × Arg)}
    (h : ∀ e ∈ entries, argOf e.1 m = some e.2) (tmp : Int) :
    findUntagged index m tmp (entries.map Prod.fst) =
      some ((if index < tmp then none
        else (entries.filter fun e => e.2.untagged)[(index - tmp).toNat]?).map Prod.fst) := by
  induction entries generalizing tmp with
  | nil => simp [findUntagged]
  | cons e entries ih =>
    obtain ⟨he, hrest⟩ := List.forall_mem_cons.mp h
    rw [List.map_cons, findUntagged, he, List.filter_cons]
    cases huntagged : e.2.untagged with
    | false => simpa [huntagged] using ih hrest tmp
    | true =>
      by_cases heq : tmp = index
      · simp [huntagged, heq]
      · have hnext := ih hrest (tmp + 1)
        by_cases hlt : index < tmp
        · have hlt' : index < tmp + 1 := by omega
          simpa [huntagged, heq, hlt, hlt'] using hnext
        · have hge : ¬ index < tmp + 1 := by omega
          have hsucc : (index - tmp).toNat = (index - (tmp + 1)).toNat + 1 := by omega
          simpa [huntagged, heq, hlt, hge, hsucc] using hnext

theorem untaggedOptionsCount_eq {m : Memory O} {entries : List (O × Arg)}
    (h : ∀ e ∈ entries, argOf e.1 m = some e.2) :
    untaggedOptionsCount m (entries.map Prod.fst) =
      some ((entries.filter fun e => e.2.untagged).length : Int) := by
  induction entries with
  | nil => rfl
  | cons e entries ih =>
    obtain ⟨he, hrest⟩ := List.forall_mem_cons.mp h
    rw [List.map_cons, untaggedOptionsCount, he, ih hrest, List.filter_cons]
    cases huntagged : e.2.untagged <;> simp [huntagged]

theorem find_eq (which : Which) {m : Memory O} {g : Nat} {t : Table O} (h : Stands m g t) :
    find which m (t.entries.map Prod.fst) = some ((t.find which).map Prod.fst) := by
  cases which with
  | named name => exact findNamed_eq name h.argOf_eq
  | untagged index => simpa [find, Table.find] using findUntagged_eq index h.argOf_eq 0

theorem mem_of_find {which : Which} {t : Table O} {e : O × Arg} (h : t.find which = some e) :
    e ∈ t.entries := by
  cases which with
  | named name => exact List.mem_of_find?_eq_some h
  | untagged index =>
    simp only [Table.find] at h
    split at h
    · cases h
    · exact (List.mem_filter.mp (List.mem_of_getElem? h)).1

/-- What is asked of a group that stands is asked of its table. -/
theorem ask_eq {request : Request} {m : Memory O} {g : Nat} {t : Table O} (h : Stands m g t) :
    ask base request g m = t.ask base request := by
  cases request with
  | parse args => rfl
  | count which =>
    cases hfind : t.find which with
    | none => simp [ask, countOf, h.group, find_eq which h, hfind, Table.ask]
    | some e =>
      have harg := h.argOf_eq e (mem_of_find hfind)
      simp [ask, countOf, h.group, find_eq which h, hfind, harg, Table.ask]
  | untaggedOptionsCount =>
    simp [ask, h.group, untaggedOptionsCount_eq h.argOf_eq, Table.ask]
  | optionCount which =>
    cases hfind : t.find which with
    | none => simp [ask, optionOf, h.group, find_eq which h, hfind, Table.ask]
    | some e =>
      have harg := h.argOf_eq e (mem_of_find hfind)
      simp [ask, optionOf, h.group, find_eq which h, hfind, harg, Table.ask]
  | optionValue which idx =>
    cases hfind : t.find which with
    | none => simp [ask, optionOf, h.group, find_eq which h, hfind, Table.ask]
    | some e =>
      have harg := h.argOf_eq e (mem_of_find hfind)
      cases htyped : (base e.1).argument with
      | none =>
        simp [ask, optionOf, h.group, find_eq which h, hfind, Table.ask, valueOf, htyped,
          Reply.ofExcept]
      | some argument =>
        cases hvalue : e.2.value idx <;>
          simp [ask, optionOf, h.group, find_eq which h, hfind, harg, Table.ask, valueOf, htyped,
            hvalue]
  | groupName => simp [ask, h.group, Table.ask]

theorem Stands.of_eq {m m' : Memory O} {g : Nat} {t : Table O} (h : Stands m g t)
    (hgroups : m'.groups g = m.groups g) (harg : ∀ e ∈ t.entries, m'.arg e.1 = m.arg e.1) :
    Stands m' g t :=
  ⟨hgroups.trans h.group, fun j e he => (harg e (List.mem_of_getElem? he)).trans (h.arg j e he)⟩

theorem Argtable.length_parse (argtable : Argtable) (argv : List Text) (args : List Arg) :
    (argtable.parse argv args).args.length = args.length := by
  simpa using congrArg List.length (argtable.headers argv args)

/-- Parsing with one group that stands. -/
theorem parseGroup_eq (program : Text) {args : List Text} (hargs : args.isEmpty = false)
    {m : Memory O} {g : Nat} {t : Table O} (h : Stands m g t) :
    ∃ m', parseGroup argtable program args g m =
        some ((t.parse argtable program args).1, (t.parse argtable program args).2.1, m') ∧
      Stands m' g (t.parse argtable program args).2.2 ∧
      (∀ g', g' ≠ g → m'.groups g' = m.groups g') ∧ m'.arg = m.arg := by
  obtain ⟨r, hr⟩ : ∃ r, argtable.parse (args.map cString) (t.entries.map Prod.snd) = r := ⟨_, rfl⟩
  have hlen : r.args.length = (t.entries.map Prod.fst).length := by
    rw [← hr, Argtable.length_parse, List.length_map, List.length_map]
  let group : Group O := ⟨t.name, t.entries.map Prod.fst, r.args⟩
  refine ⟨{ m with groups := Function.update m.groups g (some group) }, ?_, ⟨?_, ?_⟩, ?_, rfl⟩
  · by_cases hn : r.nerrors = 0
    · simp [parseGroup, h.group, hargs, Table.parse, hr, hn, group]
    · simp [parseGroup, h.group, hargs, Table.parse, hr, hn, Nat.pos_of_ne_zero hn, group]
  · have hfst : ((t.entries.map Prod.fst).zip r.args).map Prod.fst = t.entries.map Prod.fst :=
      List.map_fst_zip hlen.ge
    have hsnd : ((t.entries.map Prod.fst).zip r.args).map Prod.snd = r.args :=
      List.map_snd_zip hlen.le
    simp [Table.parse, hr, hfst, hsnd, group]
  · intro j e he
    rw [Table.parse, hr] at he
    obtain ⟨o, a, ho, ha, rfl⟩ : ∃ o a, (t.entries.map Prod.fst)[j]? = some o ∧
        r.args[j]? = some a ∧ e = (o, a) := by
      have := List.getElem?_zip_eq_some.mp he
      exact ⟨e.1, e.2, this.1, this.2, rfl⟩
    obtain ⟨e', he', rfl⟩ : ∃ e', t.entries[j]? = some e' ∧ e'.1 = o := by
      simpa using ho
    exact h.arg j e' he'
  · intro g' hg'
    exact Function.update_of_ne hg' _ _

theorem parseTables_bound (program : Text) (args : List Text) (tables : List (Table O)) (ss : Text)
    {i : Nat} (h : (Lists.parseTables argtable program args tables ss).1 = some i) :
    i < tables.length := by
  induction tables generalizing ss i with
  | nil => cases h
  | cons t tables ih =>
    simp only [Lists.parseTables] at h
    split at h
    · cases h
      simp
    · obtain ⟨k, hk, rfl⟩ := Option.map_eq_some_iff.mp h
      have := ih _ hk
      simpa using this

/-- The loop over the groups is the loop over their tables. -/
theorem parseGroups_eq (program : Text) {args : List Text} (hargs : args.isEmpty = false)
    {m : Memory O} {gs : List Nat} {tables : List (Table O)}
    (h : List.Forall₂ (Stands m) gs tables) (hnodup : gs.Nodup) (ss : Text) :
    ∃ m', parseGroups argtable program args gs ss m =
        some ((Lists.parseTables argtable program args tables ss).1.bind fun i => gs[i]?,
          (Lists.parseTables argtable program args tables ss).2.1, m') ∧
      List.Forall₂ (Stands m') gs (Lists.parseTables argtable program args tables ss).2.2 ∧
      (∀ g, g ∉ gs → m'.groups g = m.groups g) ∧ m'.arg = m.arg := by
  induction gs generalizing m tables ss with
  | nil =>
    cases h
    exact ⟨m, rfl, .nil, fun _ _ => rfl, rfl⟩
  | cons g gs ih =>
    obtain ⟨t, tables, hg, hrest, rfl⟩ := List.forall₂_cons_left_iff.mp h
    obtain ⟨hnot, hnodup'⟩ := List.nodup_cons.mp hnodup
    obtain ⟨m₁, heq, hstands, hframe, harg⟩ := @parseGroup_eq _ argtable program args hargs m g t hg
    -- parsing with one group leaves the others as they are
    have hkeep : List.Forall₂ (Stands m₁) gs tables := by
      refine List.forall₂_iff_get.mpr ⟨hrest.length_eq, fun i hi hi' => ?_⟩
      refine (hrest.get hi hi').of_eq (hframe _ ?_) fun e _ => congrFun harg e.1
      rintro heq
      exact hnot (heq ▸ List.get_mem gs ⟨i, hi⟩)
    simp only [parseGroups, Lists.parseTables, heq, Option.bind_eq_bind, Option.bind_some]
    cases hmatch : (t.parse argtable program args).1 with
    | true =>
      have htext : (t.parse argtable program args).2.1 = [] := by
        have hn : (argtable.parse (args.map cString) (t.entries.map Prod.snd)).nerrors = 0 := by
          simpa [Table.parse] using hmatch
        simp [Table.parse, hn]
      refine ⟨m₁, by simp [htext], .cons hstands hkeep, fun g' hg' => ?_, harg⟩
      exact hframe g' (fun h => hg' (by simp [h]))
    | false =>
      obtain ⟨m', hloop, hall, hframe', harg'⟩ :=
        ih hkeep hnodup' (ss ++ (t.parse argtable program args).2.1)
      have hhead := hstands.of_eq (hframe' g hnot) fun e _ => congrFun harg' e.1
      refine ⟨m', ?_, .cons hhead hall, ?_, harg'.trans harg⟩
      · simp [hloop, Option.bind_map, Function.comp_def]
      · intro g' hg'
        obtain ⟨hne, hnot'⟩ := not_or.mp (List.mem_cons.not.mp hg')
        exact (hframe' g' hnot').trans (hframe g' hne)

/-- The memory has what the lists have. -/
structure Refines (s : CommandLineOptions × Memory O) (l : Lists O) : Prop where
  program : s.1.program = l.program
  stands : List.Forall₂ (Stands s.2) s.1.options l.tables
  nodup : s.1.options.Nodup
  active : s.1.activeGroup = l.active.bind fun i => s.1.options[i]?
  bound : ∀ i, l.active = some i → i < l.tables.length

theorem Refines.parse {s : CommandLineOptions × Memory O} {l : Lists O} (h : Refines s l)
    (args : List Text) :
    (step base argtable s (.parse args)).1 = (Lists.step base argtable l (.parse args)).1 ∧
      Refines (step base argtable s (.parse args)).2
        (Lists.step base argtable l (.parse args)).2 := by
  obtain ⟨c, m⟩ := s
  cases hargs : args.isEmpty with
  | true =>
    refine ⟨by simp [step, Lists.step, CommandLine.parse, hargs], ?_⟩
    simp only [step, Lists.step, CommandLine.parse, hargs, if_true]
    exact ⟨h.program, h.stands, h.nodup, rfl, by simp⟩
  | false =>
    obtain ⟨m', hloop, hall, -, -⟩ :=
      @parseGroups_eq _ argtable c.program args hargs m c.options l.tables h.stands h.nodup []
    rw [show c.program = l.program from h.program] at hloop hall
    have hbound : ∀ i, (Lists.parseTables argtable l.program args l.tables []).1 = some i →
        i < l.tables.length := fun i => parseTables_bound l.program args l.tables []
    generalize hr : Lists.parseTables argtable l.program args l.tables [] = r at hloop hall hbound
    have hsome : (r.1.bind fun i => c.options[i]?).isSome = r.1.isSome := by
      cases hfirst : r.1 with
      | none => rfl
      | some i =>
        have hlt : i < c.options.length := h.stands.length_eq ▸ hbound i hfirst
        simp [hlt]
    have hstep : step base argtable (c, m) (.parse args) =
        (some (.parsed r.1.isSome (if r.1.isSome then [] else r.2.1)),
          ({ c with activeGroup := r.1.bind (fun i => c.options[i]?) }, m')) := by
      simp [step, CommandLine.parse, hargs, show c.program = l.program from h.program, hloop, hsome]
    have hspec : Lists.step base argtable l (.parse args) =
        (some (.parsed r.1.isSome (if r.1.isSome then [] else r.2.1)),
          { l with tables := r.2.2, active := r.1 }) := by
      simp [Lists.step, hargs, hr]
    rw [hstep, hspec]
    refine ⟨rfl, h.program, hall, h.nodup, rfl, fun i hi => ?_⟩
    rw [← hall.length_eq, h.stands.length_eq]
    exact hbound i hi

/-- What is asked after parsing is asked of the table of the same group. -/
theorem Refines.asked {s : CommandLineOptions × Memory O} {l : Lists O} (h : Refines s l)
    {request : Request} (hrequest : ∀ args, request ≠ .parse args) :
    step base argtable s request =
      ((Lists.step base argtable l request).1, s) ∧ (Lists.step base argtable l request).2 = l := by
  obtain ⟨c, m⟩ := s
  have hstep : step base argtable (c, m) request =
      match c.activeGroup with
      | none => (some (.thrown notParsed), c, m)
      | some g => (ask base request g m, c, m) := by
    cases request with
    | parse args => exact absurd rfl (hrequest args)
    | _ => rfl
  have hspec : Lists.step base argtable l request =
      match l.active.bind fun i => l.tables[i]? with
      | none => (some (.thrown notParsed), l)
      | some t => (t.ask base request, l) := by
    cases request with
    | parse args => exact absurd rfl (hrequest args)
    | _ => rfl
  rw [hstep, hspec, show c.activeGroup = _ from h.active]
  cases hactive : l.active with
  | none => exact ⟨rfl, rfl⟩
  | some i =>
    have hi := h.bound i hactive
    have hi' : i < c.options.length := h.stands.length_eq ▸ hi
    have hstands : Stands m c.options[i] l.tables[i] := h.stands.get hi' hi
    simp [hi, hi', ask_eq hstands]

/-- One request to the memory is one request to the lists. -/
theorem step_refines {s : CommandLineOptions × Memory O} {l : Lists O} (h : Refines s l)
    (request : Request) :
    (step base argtable s request).1 = (Lists.step base argtable l request).1 ∧
      Refines (step base argtable s request).2 (Lists.step base argtable l request).2 := by
  by_cases hparse : ∃ args, request = .parse args
  · obtain ⟨args, rfl⟩ := hparse
    exact h.parse args
  · obtain ⟨hstep, hsame⟩ := h.asked fun args heq => hparse ⟨args, heq⟩
    rw [hstep, hsame]
    exact ⟨rfl, h⟩

end

/-! ## §5 The constructor -/

section

variable {O : Type} [DecidableEq O] {base : O → OptionBase} {grow : Nat → Nat}

/-- A group with the name and the options is in the memory, and nothing was
parsed with it. -/
def Fresh (base : O → OptionBase) (m : Memory O) (g : Nat) (group : Text × List O) : Prop :=
  m.groups g = some (newGroup base group.1 group.2)

/-- Such a group whose options point to it. -/
def StandsNew (base : O → OptionBase) (m : Memory O) (g : Nat) (group : Text × List O) : Prop :=
  Stands m g (Table.new base group.1 group.2)

omit [DecidableEq O] in
theorem StandsNew.fresh {m : Memory O} {g : Nat} {group : Text × List O}
    (h : StandsNew base m g group) : Fresh base m g group := by
  have := h.group
  simpa [Table.new, Fresh, newGroup, Function.comp_def] using this

omit [DecidableEq O] in
theorem StandsNew.of_eq {m m' : Memory O} {g : Nat} {group : Text × List O}
    (h : StandsNew base m g group) (hgroups : m'.groups g = m.groups g)
    (harg : ∀ o ∈ group.2, m'.arg o = m.arg o) : StandsNew base m' g group := by
  refine Stands.of_eq h hgroups fun e he => ?_
  obtain ⟨o, ho, rfl⟩ := List.mem_map.mp he
  exact harg o ho

/-- The options of a group that was just made point to it, if none comes twice. -/
theorem make_stands (group : Text × List O) (hnodup : group.2.Nodup) (m : Memory O) :
    StandsNew base (make base group.1 group.2 m).2 m.next group := by
  refine ⟨by simp [newGroup, Table.new, Function.comp_def], fun j e he => ?_⟩
  obtain ⟨o, ho, rfl⟩ : ∃ o, group.2[j]? = some o ∧ (o, (base o).newArg) = e := by
    simpa [Table.new] using he
  obtain ⟨i, hi, harg⟩ := make_arg_of_mem base group.1 m (List.mem_of_getElem? ho)
  rw [harg]
  obtain ⟨hj, hoj⟩ := List.getElem?_eq_some_iff.mp ho
  obtain ⟨hi', hoi⟩ := List.getElem?_eq_some_iff.mp hi
  have : i = j := (List.Nodup.getElem_inj_iff hnodup).mp (hoi.trans hoj.symm)
  rw [this]

theorem copy_eq {m : Memory O} {g : Nat} {group : Text × List O} (h : Fresh base m g group) :
    copy base g m = some (make base group.1 group.2 m) := by
  simp [copy, show m.groups g = _ from h, newGroup]

/-- What was there stays there, and only the pointers of these options change. -/
structure Beside (options : List O) (m m' : Memory O) : Prop where
  groups : ∀ g, g < m.next → m'.groups g = m.groups g
  arg : ∀ o, o ∉ options → m'.arg o = m.arg o
  next : m.next ≤ m'.next

variable (base) in
theorem make_beside (group : Text × List O) (m : Memory O) :
    Beside group.2 m (make base group.1 group.2 m).2 where
  groups := by
    intro g hg
    rw [make_groups, Function.update_of_ne (by omega)]
  arg := fun o ho => make_arg_of_not_mem base group.1 m ho
  next := by simp

variable (base) in
theorem make_alive (group : Text × List O) (m : Memory O) (g : Nat) :
    ((make base group.1 group.2 m).2.groups g).isSome ↔ g = m.next ∨ (m.groups g).isSome := by
  by_cases h : g = m.next <;> simp [h]

/-- Copies of groups that have no option in common. -/
theorem copyAll_spec {m : Memory O} {gs : List Nat} {groups : List (Text × List O)}
    (h : List.Forall₂ (Fresh base m) gs groups) (hgs : ∀ g ∈ gs, g < m.next)
    (hnodup : (groups.flatMap Prod.snd).Nodup) :
    ∃ news m', copyAll base gs m = some (news, m') ∧
      List.Forall₂ (StandsNew base m') news groups ∧ news.Nodup ∧
      (∀ n ∈ news, m.next ≤ n ∧ n < m'.next) ∧ Beside (groups.flatMap Prod.snd) m m' ∧
      ∀ g, (m'.groups g).isSome ↔ g ∈ news ∨ (m.groups g).isSome := by
  induction gs generalizing m groups with
  | nil =>
    cases h
    exact ⟨[], m, rfl, .nil, .nil, by simp, ⟨fun _ _ => rfl, fun _ _ => rfl, Nat.le_refl _⟩,
      by simp⟩
  | cons g gs ih =>
    obtain ⟨group, groups, hg, hrest, rfl⟩ := List.forall₂_cons_left_iff.mp h
    rw [List.flatMap_cons, List.nodup_append] at hnodup
    obtain ⟨hnodup₁, hnodup₂, hdisjoint⟩ := hnodup
    obtain ⟨m₁, hm₁⟩ : ∃ m₁, (make base group.1 group.2 m).2 = m₁ := ⟨_, rfl⟩
    have hbeside₁ : Beside group.2 m m₁ := hm₁ ▸ make_beside base group m
    have hnext₁ : m₁.next = m.next + 1 := by rw [← hm₁, make_next]
    have hfresh₁ : List.Forall₂ (Fresh base m₁) gs groups := by
      refine List.forall₂_iff_get.mpr ⟨hrest.length_eq, fun i hi hi' => ?_⟩
      exact (hbeside₁.groups _ (hgs _ (by simp))).trans (hrest.get hi hi')
    obtain ⟨news, m', hcopy, hstands, hnews, hrange, hbeside, halive⟩ :=
      ih hfresh₁ (fun g' hg' => by have := hgs g' (by simp [hg']); omega) hnodup₂
    have hhead : StandsNew base m' m.next group := by
      refine StandsNew.of_eq (hm₁ ▸ make_stands group hnodup₁ m) (hbeside.groups _ (by omega)) ?_
      intro o ho
      exact hbeside.arg o fun ho' => hdisjoint o ho o ho' rfl
    refine ⟨m.next :: news, m', ?_, .cons hhead hstands, ?_, ?_, ⟨?_, ?_, ?_⟩, ?_⟩
    · have hpair : make base group.1 group.2 m = (m.next, m₁) := Prod.ext rfl hm₁
      simp [copyAll, copy_eq hg, hpair, hcopy]
    · refine List.nodup_cons.mpr ⟨fun hmem => ?_, hnews⟩
      have := (hrange _ hmem).1
      omega
    · intro n hn
      have hle := hbeside.next
      rcases List.mem_cons.mp hn with rfl | hn
      · omega
      · have := hrange n hn
        omega
    · intro g' hg'
      exact (hbeside.groups g' (by omega)).trans (hbeside₁.groups g' hg')
    · intro o ho
      rw [List.flatMap_cons, List.mem_append, not_or] at ho
      exact (hbeside.arg o ho.2).trans (hbeside₁.arg o ho.1)
    · have := hbeside.next
      omega
    · intro g'
      rw [halive g', ← hm₁, make_alive, List.mem_cons]
      tauto

omit [DecidableEq O] in
theorem destroyAll_spec {m : Memory O} {gs : List Nat} (hnodup : gs.Nodup)
    (h : ∀ g ∈ gs, (m.groups g).isSome) :
    ∃ m', destroyAll gs m = some m' ∧ m'.arg = m.arg ∧ m'.next = m.next ∧
      (∀ g, g ∉ gs → m'.groups g = m.groups g) ∧ ∀ g ∈ gs, m'.groups g = none := by
  induction gs generalizing m with
  | nil => exact ⟨m, rfl, rfl, rfl, fun _ _ => rfl, by simp⟩
  | cons g gs ih =>
    obtain ⟨hnot, hnodup'⟩ := List.nodup_cons.mp hnodup
    obtain ⟨group, hgroup⟩ := Option.isSome_iff_exists.mp (h g (by simp))
    obtain ⟨m', hdestroy, harg, hnext, hkept, hgone⟩ :=
      @ih { m with groups := Function.update m.groups g none } hnodup' (by
        intro g' hg'
        have hne : g' ≠ g := by rintro rfl; exact hnot hg'
        simpa [hne] using h g' (by simp [hg']))
    refine ⟨m', by simp [destroyAll, destroy, hgroup, hdestroy], harg, hnext, ?_, ?_⟩
    · intro g' hg'
      obtain ⟨hne, hnot'⟩ := not_or.mp (List.mem_cons.not.mp hg')
      rw [hkept g' hnot']
      exact Function.update_of_ne hne _ _
    · intro g' hg'
      rcases List.mem_cons.mp hg' with rfl | hg'
      · rw [hkept g' hnot]
        exact Function.update_self _ _ _
      · exact hgone g' hg'

/-- The vector while it is filled: it has the groups that are `done`, the groups
that the caller listed are as they were, and there are no others. -/
structure Building (base : O → OptionBase) (listed : List (Nat × Text × List O))
    (done : List (Text × List O)) (c : CommandLineOptions) (m : Memory O) : Prop where
  fresh : ∀ p ∈ listed, Fresh base m p.1 p.2
  stands : List.Forall₂ (StandsNew base m) c.options done
  nodup : c.options.Nodup
  apart : ∀ p ∈ listed, p.1 ∉ c.options
  below : ∀ g, (m.groups g).isSome → g < m.next
  alive : ∀ g, (m.groups g).isSome ↔ g ∈ listed.map Prod.fst ∨ g ∈ c.options

section

variable {listed : List (Nat × Text × List O)} {done : List (Text × List O)}
  {c : CommandLineOptions} {m : Memory O}

omit [DecidableEq O] in
theorem Building.below_listed (h : Building base listed done c m) {p : Nat × Text × List O}
    (hp : p ∈ listed) : p.1 < m.next :=
  h.below p.1 ((h.alive p.1).mpr (.inl (List.mem_map_of_mem hp)))

omit [DecidableEq O] in
theorem Building.below_options (h : Building base listed done c m) {g : Nat}
    (hg : g ∈ c.options) : g < m.next :=
  h.below g ((h.alive g).mpr (.inr hg))

/-- One more group is made; what was made before still stands. -/
theorem Building.made (h : Building base listed done c m) (group : Text × List O)
    (hdisjoint : ∀ done' ∈ done, ∀ o ∈ done'.2, o ∉ group.2) :
    List.Forall₂ (StandsNew base (make base group.1 group.2 m).2) c.options done ∧
    ∀ p ∈ listed, Fresh base (make base group.1 group.2 m).2 p.1 p.2 := by
  have hbeside := make_beside base group m
  constructor
  · refine List.forall₂_iff_get.mpr ⟨h.stands.length_eq, fun i hi hi' => ?_⟩
    refine (h.stands.get hi hi').of_eq (hbeside.groups _ (h.below_options (List.get_mem _ _))) ?_
    exact fun o ho => hbeside.arg o (hdisjoint _ (List.get_mem _ _) o ho)
  · intro p hp
    exact (hbeside.groups p.1 (h.below_listed hp)).trans (h.fresh p hp)

variable (grow) in
/-- `push_back`, whether the vector grows or not. -/
theorem Building.pushBack (h : Building base listed done c m) {g : Nat} {group : Text × List O}
    (hg : (g, group) ∈ listed) (hnodup : ((done ++ [group]).flatMap Prod.snd).Nodup) :
    ∃ c' m', pushBack base grow g c m = some (c', m') ∧
      Building base listed (done ++ [group]) c' m' ∧ c'.program = c.program ∧
      c'.activeGroup = c.activeGroup := by
  rw [List.flatMap_append, List.nodup_append] at hnodup
  obtain ⟨hdone, hgroup, hdisjoint⟩ := hnodup
  rw [List.flatMap_singleton] at hgroup hdisjoint
  have hapart : ∀ done' ∈ done, ∀ o ∈ done'.2, o ∉ group.2 := fun done' hdone' o ho ho' =>
    hdisjoint o (List.mem_flatMap.mpr ⟨done', hdone', ho⟩) o ho' rfl
  have hcopy : copy base g m = some (make base group.1 group.2 m) := copy_eq (h.fresh _ hg)
  obtain ⟨hstands₁, hfresh₁⟩ := h.made group hapart
  have hnew : StandsNew base (make base group.1 group.2 m).2 m.next group :=
    make_stands group hgroup m
  have halive₁ := make_alive base group m
  have hnext₁ : (make base group.1 group.2 m).2.next = m.next + 1 := make_next base group.1 _ m
  by_cases hroom : c.options.length < c.capacity
  · refine ⟨{ c with options := c.options ++ [m.next] }, (make base group.1 group.2 m).2,
      by simp [CommandLine.pushBack, hcopy, hroom], ⟨hfresh₁, ?_, ?_, ?_, ?_, ?_⟩, rfl, rfl⟩
    · exact List.rel_append hstands₁ (.cons hnew .nil)
    · refine List.nodup_append.mpr ⟨h.nodup, by simp, ?_⟩
      intro a ha b hb
      have := h.below_options ha
      have : b = m.next := List.mem_singleton.mp hb
      omega
    · intro p hp hmem
      rcases List.mem_append.mp hmem with hmem | hmem
      · exact h.apart p hp hmem
      · have := h.below_listed hp
        have : p.1 = m.next := List.mem_singleton.mp hmem
        omega
    · intro g' hg'
      rw [halive₁] at hg'
      rcases hg' with rfl | hg'
      · omega
      · have := h.below g' hg'
        omega
    · intro g'
      rw [halive₁, h.alive g', List.mem_append, List.mem_singleton]
      tauto
  · generalize hm₁ : (make base group.1 group.2 m).2 = m₁ at *
    have hpair : make base group.1 group.2 m = (m.next, m₁) := Prod.ext rfl hm₁
    have hfresh : List.Forall₂ (Fresh base m₁) c.options done :=
      hstands₁.imp fun _ _ h => StandsNew.fresh h
    obtain ⟨news, m₂, hcopyAll, hstands₂, hnews, hrange, hbeside, halive₂⟩ :=
      copyAll_spec hfresh (fun g' hg' => by have := h.below_options hg'; omega) hdone
    obtain ⟨m₃, hdestroy, harg₃, hnext₃, hkept, hgone⟩ :=
      @destroyAll_spec _ m₂ c.options h.nodup fun g' hg' =>
        (halive₂ g').mpr (.inr ((halive₁ g').mpr (.inr ((h.alive g').mpr (.inr hg')))))
    -- what is new is not among what is destroyed
    have hnewer : ∀ g', m.next ≤ g' → g' ∉ c.options := by
      intro g' hg' hmem
      have := h.below_options hmem
      omega
    have hle := hbeside.next
    refine ⟨{ c with options := news ++ [m.next], capacity := grow c.capacity }, m₃,
      by simp [CommandLine.pushBack, hcopy, hpair, hroom, hcopyAll, hdestroy],
      ⟨?_, ?_, ?_, ?_, ?_, ?_⟩, rfl, rfl⟩
    · intro p hp
      have hlt := h.below_listed hp
      exact (hkept p.1 (h.apart p hp)).trans
        ((hbeside.groups p.1 (by omega)).trans (hfresh₁ p hp))
    · refine List.rel_append ?_ (.cons ?_ .nil)
      · refine List.forall₂_iff_get.mpr ⟨hstands₂.length_eq, fun i hi hi' => ?_⟩
        have hmem := (hrange _ (List.get_mem news ⟨i, hi⟩)).1
        refine (hstands₂.get hi hi').of_eq (hkept _ (hnewer _ (by omega))) ?_
        exact fun o _ => congrFun harg₃ o
      · refine hnew.of_eq ((hkept _ (hnewer _ (Nat.le_refl _))).trans
          (hbeside.groups _ (by omega))) fun o ho => ?_
        rw [harg₃]
        refine hbeside.arg o fun ho' => ?_
        obtain ⟨done', hdone', hmem⟩ := List.mem_flatMap.mp ho'
        exact hapart done' hdone' o hmem ho
    · refine List.nodup_append.mpr ⟨hnews, by simp, ?_⟩
      intro a ha b hb
      have := (hrange a ha).1
      have : b = m.next := List.mem_singleton.mp hb
      omega
    · intro p hp hmem
      have hlt := h.below_listed hp
      rcases List.mem_append.mp hmem with hmem | hmem
      · have := (hrange p.1 hmem).1
        omega
      · have : p.1 = m.next := List.mem_singleton.mp hmem
        omega
    · intro g' hg'
      by_cases hmem : g' ∈ c.options
      · simp [hgone g' hmem] at hg'
      · rw [hkept g' hmem, halive₂, halive₁] at hg'
        rcases hg' with hg' | rfl | hg'
        · have := (hrange g' hg').2
          omega
        · omega
        · have := h.below g' hg'
          omega
    · intro g'
      by_cases hmem : g' ∈ c.options
      · have hnot : g' ∉ news ++ [m.next] := by
          have hlt := h.below_options hmem
          intro hmem'
          rcases List.mem_append.mp hmem' with hmem' | hmem'
          · have := (hrange g' hmem').1
            omega
          · have : g' = m.next := List.mem_singleton.mp hmem'
            omega
        have hnot' : g' ∉ listed.map Prod.fst := by
          intro hlisted
          obtain ⟨p, hp, rfl⟩ := List.mem_map.mp hlisted
          exact h.apart p hp hmem
        simp [hgone g' hmem, hnot, hnot']
      · rw [hkept g' hmem, halive₂, halive₁, h.alive g', List.mem_append, List.mem_singleton]
        tauto

variable (grow) in
/-- The loop of the constructor. -/
theorem Building.pushAll (h : Building base listed done c m)
    {rest : List (Nat × Text × List O)} (hrest : rest ⊆ listed)
    (hnodup : ((done ++ rest.map Prod.snd).flatMap Prod.snd).Nodup) :
    ∃ c' m', pushAll base grow (rest.map Prod.fst) c m = some (c', m') ∧
      Building base listed (done ++ rest.map Prod.snd) c' m' ∧ c'.program = c.program ∧
      c'.activeGroup = c.activeGroup := by
  induction rest generalizing done c m with
  | nil => exact ⟨c, m, rfl, by simpa using h, rfl, rfl⟩
  | cons p rest ih =>
    obtain ⟨hp, hrest'⟩ := List.cons_subset.mp hrest
    rw [List.map_cons, List.append_cons] at hnodup
    have hone : ((done ++ [p.2]).flatMap Prod.snd).Nodup := by
      rw [List.flatMap_append, List.nodup_append] at hnodup
      exact hnodup.1
    obtain ⟨c₁, m₁, hpush, hbuilding, hprogram, hactive⟩ := h.pushBack grow hp hone
    obtain ⟨c₂, m₂, hloop, hbuilt, hprogram', hactive'⟩ := ih hbuilding hrest' hnodup
    refine ⟨c₂, m₂, ?_, ?_, hprogram'.trans hprogram, hactive'.trans hactive⟩
    · simp [CommandLine.pushAll, hpush, hloop]
    · rwa [List.map_cons, List.append_cons]

/-- The groups that the caller lists. -/
theorem makeAll_spec (groups : List (Text × List O)) (m : Memory O) :
    List.Forall₂ (Fresh base (makeAll base groups m).2) (makeAll base groups m).1 groups ∧
      (makeAll base groups m).1.Nodup ∧
      (∀ g ∈ (makeAll base groups m).1, m.next ≤ g ∧ g < (makeAll base groups m).2.next) ∧
      (∀ g, g < m.next → (makeAll base groups m).2.groups g = m.groups g) ∧
      m.next ≤ (makeAll base groups m).2.next ∧
      ∀ g, ((makeAll base groups m).2.groups g).isSome ↔
        g ∈ (makeAll base groups m).1 ∨ (m.groups g).isSome := by
  induction groups generalizing m with
  | nil => exact ⟨.nil, .nil, by simp [makeAll], fun _ _ => rfl, Nat.le_refl _, by simp [makeAll]⟩
  | cons group groups ih =>
    obtain ⟨hfresh, hnodup, hrange, hkept, hnext, halive⟩ :=
      ih (make base group.1 group.2 m).2
    rw [make_next] at hrange hkept hnext
    have hhead := hkept m.next (by omega)
    simp only [makeAll, make_fst]
    refine ⟨.cons ?_ hfresh, ?_, ?_, ?_, by omega, ?_⟩
    · exact hhead.trans (by simp)
    · refine List.nodup_cons.mpr ⟨fun hmem => ?_, hnodup⟩
      have := (hrange _ hmem).1
      omega
    · intro g hg
      rcases List.mem_cons.mp hg with rfl | hg
      · omega
      · have := hrange g hg
        omega
    · intro g hg
      rw [hkept g (by omega)]
      exact (make_beside base group m).groups g hg
    · intro g
      rw [halive g, make_alive, List.mem_cons]
      tauto

/-- The groups that a program starts with, without pointers. -/
def Lists.new (base : O → OptionBase) (program : Text) (groups : List (Text × List O)) : Lists O :=
  ⟨program, groups.map fun group => Table.new base group.1 group.2, none⟩

variable (grow) in
/-- The constructor comes to an end, and of all the groups that were made those
of the vector are left, with their options pointing to them. -/
theorem construct_refines (program : Text) {groups : List (Text × List O)}
    (hnodup : (groups.flatMap Prod.snd).Nodup) :
    ∃ s, construct base grow program groups = some s ∧ Refines s (Lists.new base program groups) ∧
      ∀ g, (s.2.groups g).isSome ↔ g ∈ s.1.options := by
  obtain ⟨hfresh, hids, hrange, -, -, halive⟩ := @makeAll_spec _ _ base groups {}
  generalize hmade : makeAll base groups {} = made at *
  obtain ⟨ids, m⟩ := made
  dsimp only at hfresh hids hrange halive
  have hlen : ids.length = groups.length := hfresh.length_eq
  have hfst : (ids.zip groups).map Prod.fst = ids := List.map_fst_zip hlen.le
  have hsnd : (ids.zip groups).map Prod.snd = groups := List.map_snd_zip hlen.ge
  have halive' : ∀ g, (m.groups g).isSome ↔ g ∈ ids := fun g => (halive g).trans (by simp)
  have hstart : Building base (ids.zip groups) [] ⟨program, [], 0, none⟩ m :=
    { fresh := fun p hp => (List.forall₂_iff_zip.mp hfresh).2 hp
      stands := .nil
      nodup := .nil
      apart := by simp
      below := fun g hg => (hrange g ((halive' g).mp hg)).2
      alive := by simp [hfst, halive'] }
  obtain ⟨c, m', hpush, hbuilt, hprogram, hactive⟩ :=
    hstart.pushAll grow (List.Subset.refl _) (by rwa [hsnd, List.nil_append])
  rw [hsnd, List.nil_append] at hbuilt
  rw [hfst] at hpush
  obtain ⟨m'', hdestroy, harg, -, hkept, hgone⟩ := @destroyAll_spec _ m' ids hids fun g hg =>
    (hbuilt.alive g).mpr (.inl (by rwa [hfst]))
  have hapart : ∀ g ∈ c.options, g ∉ ids := by
    intro g hg hmem
    rw [← hfst] at hmem
    obtain ⟨p, hp, rfl⟩ := List.mem_map.mp hmem
    exact hbuilt.apart p hp hg
  refine ⟨(c, m''), by simp [construct, hmade, hpush, hdestroy],
    ⟨hprogram, ?_, hbuilt.nodup, hactive, by simp [Lists.new]⟩, ?_⟩
  · refine List.forall₂_map_right_iff.mpr (List.forall₂_iff_get.mpr
      ⟨hbuilt.stands.length_eq, fun i hi hi' => ?_⟩)
    refine (hbuilt.stands.get hi hi').of_eq (hkept _ (hapart _ (List.get_mem _ _))) ?_
    exact fun o _ => congrFun harg o
  · intro g
    by_cases hmem : g ∈ ids
    · have hnot : g ∉ c.options := fun hg => hapart g hg hmem
      simp [hgone g hmem, hnot]
    · have hnot : g ∉ (ids.zip groups).map Prod.fst := by rwa [hfst]
      rw [hkept g hmem, hbuilt.alive g]
      simp only [hnot, false_or]

/-! ## §6 Requests -/

variable {argtable : Argtable}

omit [DecidableEq O] in
theorem outputs_refine {s : CommandLineOptions × Memory O} {l : Lists O} (h : Refines s l)
    (requests : List Request) :
    (step base argtable).outputs s requests = (Lists.step base argtable).outputs l requests := by
  induction requests generalizing s l with
  | nil => rfl
  | cons request requests ih =>
    obtain ⟨hreply, hnext⟩ := @step_refines _ base argtable s l h request
    rw [Machine.outputs_cons, Machine.outputs_cons, hreply, ih hnext]

/-- **Every option is read in the table that was parsed.**  Let no option be in
two groups, or twice in one, and let the vector grow as it likes. Then the
constructor comes to an end with no other group alive than those of the vector,
and whatever is parsed and asked afterwards, in any order, every reply is that of
a program with lists in the place of pointers: parsing finds the first group that
matches, and the numbers and values are those that the parser left for the
options of that group. -/
theorem options_read_own_tables (argtable : Argtable) (grow : Nat → Nat) (program : Text)
    {groups : List (Text × List O)} (hnodup : (groups.flatMap Prod.snd).Nodup)
    (requests : List Request) :
    ∃ s, construct base grow program groups = some s ∧
      (∀ g, (s.2.groups g).isSome ↔ g ∈ s.1.options) ∧
      (step base argtable).outputs s requests =
        (Lists.step base argtable).outputs (Lists.new base program groups) requests := by
  obtain ⟨s, hs, hrefines, halive⟩ := construct_refines grow program hnodup
  exact ⟨s, hs, halive, outputs_refine hrefines requests⟩

/-- A parser that counts how often `--` and the name of an option occur, and for
which too few or too many are an error. -/
def countingArgtable : Argtable where
  parse argv args :=
    let found := args.map fun arg =>
      { arg with count := argv.count (Text.ofString "--" ++ arg.hdr.longopts.getD []) }
    let bad := found.filter fun arg => arg.count < arg.hdr.mincount ∨ arg.hdr.maxcount < arg.count
    { nerrors := bad.length
      args := found
      errors := fun program => program ++ Text.ofString ": wrong number of options\n" }
  headers := by simp

/-- `--help`, `--host` and `--verbose`. -/
def exampleOption (o : Fin 3) : OptionBase :=
  match o with
  | 0 => ⟨[], Text.ofString "help", 1, 1, [], none⟩
  | 1 => ⟨[], Text.ofString "host", 1, 1, [], some (Text.ofString "<HOST>")⟩
  | 2 => ⟨[], Text.ofString "verbose", 0, 3, [], none⟩

theorem options_read_own_tables_example :
    ∃ s, construct exampleOption (fun n => 2 * n + 1) (Text.ofString "program")
        [(Text.ofString "Help", [0]), (Text.ofString "Options", [1, 2])] = some s ∧
      (∀ g, (s.2.groups g).isSome ↔ g ∈ s.1.options) ∧
      (step exampleOption countingArgtable).outputs s
          [.parse [Text.ofString "--host", Text.ofString "--verbose"],
            .count (.named (Text.ofString "verbose")), .optionValue (.named []) 0] =
        (Lists.step exampleOption countingArgtable).outputs
          (Lists.new exampleOption (Text.ofString "program")
            [(Text.ofString "Help", [0]), (Text.ofString "Options", [1, 2])])
          [.parse [Text.ofString "--host", Text.ofString "--verbose"],
            .count (.named (Text.ofString "verbose")), .optionValue (.named []) 0] :=
  options_read_own_tables countingArgtable (fun n => 2 * n + 1) (Text.ofString "program")
    (by decide) _

end

end

end Acatl.CommandLine
