/-
Acatl.PathElements — what forward iteration of a path yields.

`elements` says what the elements of a string are, without iterators: a first
element, which depends on the separators at the beginning, the maximal runs of
other characters behind it, and a dot for a separator at the end. `begin` and
`++` come to the same (`yields_elements`).

A path is taken apart at its front, where the first element is
(`elements_name`, `elements_net`, `elements_root`), and at its back, where the
last one is (`elements_append`, for any path in front of it).
-/
import Acatl.PathIteration
import Acatl.Lib.Pieces
import Mathlib.Data.List.DropRight

namespace Acatl.Path

open Acatl.Lib
open Acatl.Lib.Bidirectional

/-! ## §1 Elements of a string -/

/-- The separators at the beginning. -/
def leading (t : Text) : Text := t.takeWhile (· = separator)

/-- The root name, with exactly two separators; a single separator for any other
number of them; or else a name. -/
def firstElement (t : Text) : Text :=
  if (leading t).length = 2 then t.take 2 ++ (t.drop 2).takeWhile (· ≠ separator)
  else if leading t = [] then t.takeWhile (· ≠ separator)
  else [separator]

/-- The elements behind the first one. -/
def following (rest : Text) : List Text :=
  runs separator rest ++ if rest.getLast? = some separator then [[dot]] else []

def elements (t : Text) : List Text :=
  if t = [] then [] else firstElement t :: following (t.drop (firstElement t).length)

/-! ## §2 At the front -/

section

variable {seps name rest : Text}

theorem Plain.append {other : Text} (h : Plain name) (hother : Plain other) :
    Plain (name ++ other) := by
  intro c hc
  rcases List.mem_append.mp hc with hc | hc
  · exact h c hc
  · exact hother c hc

theorem plain_dot : Plain [dot] := by
  intro c hc
  obtain rfl := List.mem_singleton.mp hc
  decide

theorem leading_eq (hseps : AllSeparators seps) (hname : Plain name)
    (hend : name = [] → rest = []) : leading (seps ++ (name ++ rest)) = seps := by
  have hhead := hname.head hend
  rw [leading, List.takeWhile_append_of_pos fun c hc => by simp [hseps c hc]]
  cases hrest : name ++ rest with
  | nil => simp
  | cons c cs =>
    have hc : c ≠ separator := by simpa [hrest] using hhead
    simp [hc]

theorem takeWhile_name (hname : Plain name) (hrest : AtSeparator rest) :
    (name ++ rest).takeWhile (· ≠ separator) = name := by
  rw [List.takeWhile_append_of_pos fun c hc => by simp [(hname c hc).2]]
  cases rest with
  | nil => simp
  | cons c cs => simp [hrest c rfl]

@[simp] theorem following_nil : following [] = [] := rfl

/-- Separators at the end stand for a dot. -/
theorem following_seps (hseps : AllSeparators seps) (hne : seps ≠ []) :
    following seps = [[dot]] := by
  have hruns := runs_seps_append hseps []
  rw [List.append_nil, runs_nil] at hruns
  have hlast : seps.getLast? = some separator := by
    rw [List.getLast?_eq_some_getLast hne, hseps _ (List.getLast_mem hne)]
  rw [following, hruns, if_pos hlast, List.nil_append]

/-- The next element is a name. -/
theorem following_name (hseps : AllSeparators seps) (hname : Plain name) (hne : name ≠ [])
    (hrest : AtSeparator rest) : following (seps ++ (name ++ rest)) = name :: following rest := by
  have hruns : runs separator (seps ++ (name ++ rest)) = name :: runs separator rest := by
    rw [runs_seps_append hseps, runs_append hname.notMem hne fun c hc => hrest c hc]
  obtain ⟨c, hlast, hc⟩ := hname.getLast hne
  have hsame : (seps ++ (name ++ rest)).getLast? = some separator ↔
      rest.getLast? = some separator := by
    rw [List.getLast?_append, List.getLast?_append, hlast]
    cases rest.getLast? <;> simp [hc]
  simp only [following, hruns, hsame, List.cons_append]

/-- A path that begins with a name. -/
theorem elements_name (hname : Plain name) (hne : name ≠ []) (hrest : AtSeparator rest) :
    elements (name ++ rest) = name :: following rest := by
  have hnone : AllSeparators [] := by simp [AllSeparators]
  have hleading : leading (name ++ rest) = [] := leading_eq hnone hname fun h => absurd h hne
  have hfirst : firstElement (name ++ rest) = name := by
    rw [firstElement, hleading, if_neg (by simp), if_pos rfl, takeWhile_name hname hrest]
  rw [elements, if_neg (by simp [hne]), hfirst, List.drop_left]

/-- A path that begins with exactly two separators. -/
theorem elements_net (hname : Plain name) (hrest : AtSeparator rest)
    (hend : name = [] → rest = []) :
    elements ([separator, separator] ++ (name ++ rest)) =
      ([separator, separator] ++ name) :: following rest := by
  have hleading : leading ([separator, separator] ++ (name ++ rest)) = [separator, separator] :=
    leading_eq (by simp [AllSeparators]) hname hend
  have hfirst : firstElement ([separator, separator] ++ (name ++ rest)) =
      [separator, separator] ++ name := by
    have hlen : [separator, separator].length = 2 := rfl
    rw [firstElement, hleading, if_pos hlen]
    exact congrArg ([separator, separator] ++ ·) (takeWhile_name hname hrest)
  rw [elements, if_neg (by simp), hfirst, ← List.append_assoc, List.drop_left]

/-- A path that begins with one separator, or with three or more. -/
theorem elements_root (hseps : AllSeparators seps) (hname : Plain name)
    (hend : name = [] → rest = []) (hlen : seps.length ≠ 1) :
    elements (separator :: seps ++ (name ++ rest)) =
      [separator] :: following (seps ++ (name ++ rest)) := by
  have hall : AllSeparators (separator :: seps) := by
    intro c hc
    rcases List.mem_cons.mp hc with rfl | hc
    · rfl
    · exact hseps c hc
  have hfirst : firstElement (separator :: seps ++ (name ++ rest)) = [separator] := by
    rw [firstElement, leading_eq hall hname hend, if_neg (by simp; omega), if_neg (by simp)]
  rw [elements, if_neg (by simp), hfirst]
  rfl

end

/-! ## §3 At the back -/

/-- How a path ends: with a name, which may be empty, behind separators that are
all there are in that place. -/
structure Ends (front seps name : Text) : Prop where
  separators : AllSeparators seps
  plain : Plain name
  stop : ∀ c ∈ front.getLast?, c ≠ separator
  between : seps = [] → front = []

/-- What meets a condition at the end of a text, and what is in front of it. -/
theorem exists_behind (cond : UInt8 → Bool) (t : Text) :
    ∃ front back, t = front ++ back ∧ (∀ c ∈ back, cond c = true) ∧
      ∀ c ∈ front.getLast?, cond c = false := by
  refine ⟨t.rdropWhile cond, t.rtakeWhile cond, (List.rdropWhile_append_rtakeWhile ..).symm,
    fun c hc => List.mem_rtakeWhile_imp hc, fun c hc => ?_⟩
  have hne : t.rdropWhile cond ≠ [] := by
    intro hnil
    simp [hnil] at hc
  rw [List.getLast?_eq_some_getLast hne] at hc
  have hlast := List.rdropWhile_last_not cond t hne
  rw [Option.some.inj hc] at hlast
  exact Bool.eq_false_iff.mpr hlast

theorem exists_ends {t : Text} (hnul : (0 : UInt8) ∉ t) :
    ∃ front seps name, t = front ++ seps ++ name ∧ Ends front seps name := by
  obtain ⟨left, name, rfl, hname, hleft⟩ := exists_behind (· ≠ separator) t
  obtain ⟨front, seps, rfl, hseps, hfront⟩ := exists_behind (· = separator) left
  refine ⟨front, seps, name, rfl, ?_, ?_, ?_, ?_⟩
  · exact fun c hc => by simpa using hseps c hc
  · exact fun c hc => ⟨fun h0 => hnul (by simp [← h0, hc]), by simpa using hname c hc⟩
  · exact fun c hc => by simpa using hfront c hc
  · intro hnil
    subst hnil
    rw [List.append_nil] at hleft
    -- the last character in front is a separator, and it is not
    cases hlast : front.getLast? with
    | none => exact List.getLast?_eq_none_iff.mp hlast
    | some c =>
      have hsep : c = separator := by simpa using hleft c hlast
      exact absurd hsep (by simpa using hfront c hlast)

section

variable {front seps name : Text}

/-- The elements up to the first name. -/
def firstElements (seps name : Text) : List Text :=
  if seps = [] then [name] else if seps.length = 2 then [seps ++ name] else [[separator], name]

theorem elements_front {rest : Text} (hseps : AllSeparators seps) (hname : Plain name)
    (hne : name ≠ []) (hrest : AtSeparator rest) :
    elements (seps ++ (name ++ rest)) = firstElements seps name ++ following rest := by
  have hend : name = [] → rest = [] := fun h => absurd h hne
  cases seps with
  | nil => exact elements_name hname hne hrest
  | cons a seps =>
    obtain ⟨rfl, htail⟩ := List.forall_mem_cons.mp hseps
    by_cases hone : seps.length = 1
    · obtain rfl := AllSeparators.eq_single htail hone
      exact elements_net hname hrest hend
    · have hroot := elements_root htail hname hend hone
      rw [following_name htail hname hne hrest] at hroot
      have hlen : (separator :: seps).length ≠ 2 := by simpa using hone
      rw [hroot, firstElements, if_neg (by simp), if_neg hlen]
      rfl

/-- The element of a name behind separators. -/
def lastElement (name : Text) : Text := if name = [] then [dot] else name

theorem Ends.ne_nil (h : Ends front seps name) (hne : front ≠ []) : seps ≠ [] :=
  fun hnil => hne (h.between hnil)

theorem following_append {rest : Text} (hseps : AllSeparators seps) (hne : seps ≠ [])
    (hname : Plain name) (hrest : ∀ c ∈ rest.getLast?, c ≠ separator) :
    following (rest ++ seps ++ name) = following rest ++ [lastElement name] := by
  have hclosed : rest.getLast? ≠ some separator := fun hlast => hrest _ hlast rfl
  have hruns : runs separator (rest ++ seps ++ name) = runs separator rest ++ runs separator name := by
    obtain ⟨a, seps, rfl⟩ := List.exists_cons_of_ne_nil hne
    obtain rfl : a = separator := hseps a (by simp)
    rw [List.append_assoc, List.cons_append, runs_append_sep,
      runs_seps_append fun c hc => hseps c (List.mem_cons_of_mem _ hc)]
  rw [following, following, hruns, if_neg hclosed, List.append_nil, List.append_assoc, lastElement]
  by_cases hnil : name = []
  · subst hnil
    have hlast : (rest ++ seps ++ []).getLast? = some separator := by
      rw [List.append_nil, List.getLast?_append, List.getLast?_eq_some_getLast hne,
        hseps _ (List.getLast_mem hne)]
      rfl
    rw [if_pos hlast, runs_nil, if_pos rfl, List.nil_append]
  · obtain ⟨c, hc, hcsep⟩ := hname.getLast hnil
    have hlast : (rest ++ seps ++ name).getLast? ≠ some separator := by
      rw [List.getLast?_append, hc]
      simpa using hcsep
    rw [if_neg hlast, runs_single hname.notMem hnil, if_neg hnil, List.append_nil]

/-- **The last element comes behind those of what is in front of it.** -/
theorem elements_append (h : Ends front seps name) (hne : front ≠ [])
    (hnul : (0 : UInt8) ∉ front) :
    elements (front ++ seps ++ name) = elements front ++ [lastElement name] := by
  have hsepsne := h.ne_nil hne
  obtain ⟨root, first, rest, rfl, hroot, hfirst, hrest, hend⟩ := exists_split hnul
  have hfirstne : first ≠ [] := by
    intro hnil
    rw [hnil, hend hnil, List.append_nil, List.append_nil] at hne h
    exact h.stop _ (List.getLast?_eq_some_getLast hne) (hroot _ (List.getLast_mem hne))
  have hstop : ∀ c ∈ rest.getLast?, c ≠ separator := by
    intro c hc
    refine h.stop c ?_
    rw [List.getLast?_append, List.getLast?_append, hc]
    rfl
  have hbehind : AtSeparator (rest ++ seps ++ name) := by
    cases rest with
    | nil =>
      obtain ⟨a, seps, rfl⟩ := List.exists_cons_of_ne_nil hsepsne
      intro c hc
      obtain rfl : a = c := Option.some.inj hc
      exact h.separators a (by simp)
    | cons a rest => exact fun c hc => hrest c hc
  have hpath : root ++ (first ++ rest) ++ seps ++ name =
      root ++ (first ++ (rest ++ seps ++ name)) := by simp only [List.append_assoc]
  rw [hpath, elements_front hroot hfirst hfirstne hbehind,
    elements_front hroot hfirst hfirstne hrest,
    following_append h.separators hsepsne h.plain hstop, List.append_assoc]

end

/-! ## §4 Iteration -/

/-- Forward iteration comes to the end, and these are the elements on the way. -/
def Yields (p : Path) (es : List Text) : Prop :=
  ∃ fuel its, walkTo p.increment (·.equal p.end) fuel p.begin = some its ∧
    its.map Iterator.element = es

variable {p : Path}

theorem Yields.unique {es es' : List Text} (h : p.Yields es) (h' : p.Yields es') : es = es' := by
  obtain ⟨fuel, its, hwalk, rfl⟩ := h
  obtain ⟨fuel', its', hwalk', rfl⟩ := h'
  rw [walkTo_unique hwalk hwalk']

theorem not_equal_end (pos : Nat) (element : Text) :
    Iterator.equal ⟨some pos, element⟩ p.end = false := by simp [Iterator.equal, «end»]

theorem equal_end (element : Text) : Iterator.equal ⟨none, element⟩ p.end = true := by
  simp [Iterator.equal, «end»]

/-- One more step of the walk. -/
theorem walk_step {pos : Nat} {element : Text} {it : Iterator} {es : List Text}
    (hstep : p.increment ⟨some pos, element⟩ = some it)
    (h : ∃ fuel its, walkTo p.increment (·.equal p.end) fuel it = some its ∧
      its.map Iterator.element = es) :
    ∃ fuel its, walkTo p.increment (·.equal p.end) fuel ⟨some pos, element⟩ = some its ∧
      its.map Iterator.element = element :: es := by
  obtain ⟨fuel, its, hwalk, rfl⟩ := h
  refine ⟨fuel + 1, ⟨some pos, element⟩ :: its, ?_, rfl⟩
  rw [walkTo, not_equal_end, if_neg Bool.false_ne_true, hstep, Option.bind_some, hwalk]
  rfl

theorem walk_end (element : Text) :
    ∃ fuel its, walkTo p.increment (·.equal p.end) fuel ⟨none, element⟩ = some its ∧
      its.map Iterator.element = [] :=
  ⟨1, [], by simp [walkTo, equal_end], rfl⟩

/-- **From any place, the walk meets what follows.** -/
theorem walk_following (hnul : (0 : UInt8) ∉ p.path) : ∀ (n : Nat) {front back : Text},
    back.length ≤ n → p.path = front ++ back → ∀ element,
      ∃ fuel its, walkTo p.increment (·.equal p.end) fuel ⟨some front.length, element⟩ =
        some its ∧ its.map Iterator.element = element :: following back := by
  intro n
  induction n with
  | zero =>
    intro front back hlen hp element
    obtain rfl : back = [] := List.length_eq_zero_iff.mp (by omega)
    rw [List.append_nil] at hp
    exact walk_step (increment_end (by rw [hp]) element) (walk_end element)
  | succ n ih =>
    intro front back hlen hp element
    have hbacknul : (0 : UInt8) ∉ back := fun h0 => hnul (by rw [hp]; simp [h0])
    obtain ⟨seps, name, rest, rfl, hseps, hname, hrest, hend⟩ := exists_split hbacknul
    by_cases hne : name = []
    · obtain rfl : name = [] := hne
      obtain rfl : rest = [] := hend rfl
      rw [List.append_nil, List.append_nil] at hp ⊢
      by_cases hsepsne : seps = []
      · subst hsepsne
        rw [List.append_nil] at hp
        exact walk_step (increment_end (by rw [hp]) element) (walk_end element)
      · rw [following_seps hseps hsepsne]
        exact walk_step (increment_dot hnul hp hseps hsepsne element)
          (walk_step (increment_end rfl [dot]) (walk_end [dot]))
    · have hpath : p.path = (front ++ seps ++ name) ++ rest := by
        rw [hp]
        simp
      have hpos := List.length_pos_iff.mpr hne
      have hwalk := ih (by simp at hlen; omega) hpath name
      rw [List.length_append] at hwalk
      rw [following_name hseps hname hne hrest]
      exact walk_step (increment_name hnul hp hseps hne hname hrest element) hwalk

/-- Two separators alone are one element. -/
theorem begin_double (hp : p.path = [separator, separator]) :
    p.begin = iteratorAt [] [separator, separator] := by
  obtain ⟨path⟩ := p
  obtain rfl : path = [separator, separator] := hp
  decide

/-- Forward iteration yields the elements of the path. -/
theorem yields_elements (p : Path) (hnul : (0 : UInt8) ∉ p.path) : p.Yields (elements p.path) := by
  obtain ⟨seps, name, rest, hp, hseps, hname, hrest, hend⟩ := exists_split hnul
  have hwalk : ∀ {element back : Text}, p.path = element ++ back →
      p.begin = iteratorAt [] element → elements p.path = element :: following back →
      p.Yields (elements p.path) := by
    intro element back hpath hbegin helements
    rw [Yields, helements, hbegin, iteratorAt, List.length_nil, Nat.zero_add]
    exact walk_following hnul _ (Nat.le_refl _) hpath element
  by_cases hnil : seps = []
  · subst hnil
    rw [List.nil_append] at hp
    by_cases hne : name = []
    · -- the empty path
      rw [hne, hend hne, List.append_nil] at hp
      have hbegin : p.begin = ⟨none, []⟩ := by rw [begin, if_pos hp]
      rw [Yields, hbegin, hp]
      exact walk_end []
    · refine hwalk hp (begin_name hp hseps hname hne hrest (.inl rfl)) ?_
      rw [hp, elements_name hname hne hrest]
  · by_cases htwo : seps.length = 2
    · obtain rfl := hseps.eq_double htwo
      refine hwalk (by rw [hp, List.append_assoc]) ?_ (by rw [hp, elements_net hname hrest hend])
      by_cases hne : name = []
      · rw [hne]
        exact begin_double (by rw [hp, hne, hend hne]; rfl)
      · exact begin_name hp hseps hname hne hrest (.inr rfl)
    · obtain ⟨seps, rfl, htail⟩ := hseps.exists_tail hnil
      have hlen : seps.length ≠ 1 := fun h => htwo (by simp [h])
      have hroot : (separator :: seps).length = 1 ∨ 2 < (separator :: seps).length := by
        rw [List.length_cons] at htwo ⊢
        omega
      have hpath : p.path = [separator] ++ (seps ++ (name ++ rest)) := hp
      refine hwalk hpath
        (begin_root hp hseps (hname.head hend) hroot) ?_
      rw [hp, elements_root htail hname hend hlen]

/-- **Forward iteration comes to the end of every path without NUL, and it yields
the elements of the path and nothing else.** -/
theorem yields_iff (p : Path) (hnul : (0 : UInt8) ∉ p.path) (es : List Text) :
    p.Yields es ↔ es = elements p.path := by
  refine ⟨fun h => h.unique (yields_elements p hnul), fun h => ?_⟩
  rw [h]
  exact yields_elements p hnul

/-- `"a//"`. -/
theorem yields_iff_dot : elements [97, 47, 47] = [[97], [46]] ∧
    Yields ⟨[97, 47, 47]⟩ [[97], [46]] :=
  ⟨by decide, (yields_iff ⟨[97, 47, 47]⟩ (by decide) [[97], [46]]).mpr (by decide)⟩

/-! ## §5 Paths with a NUL -/

theorem exists_cStr (p : Path) :
    ∃ rest : Text, p.path = p.cStr ++ rest ∧ ∀ c ∈ rest.head?, c = 0 := by
  refine ⟨p.path.dropWhile (· ≠ 0), (List.takeWhile_append_dropWhile ..).symm, fun c hc => ?_⟩
  have hhead := List.head?_dropWhile_not (fun c : UInt8 => decide (c ≠ 0)) p.path
  rw [hc] at hhead
  simpa using hhead

theorem nul_notMem_cStr (p : Path) : (0 : UInt8) ∉ p.cStr := by
  intro h
  simpa using List.mem_takeWhile_imp h

section

variable {pos : Nat} (hpos : pos ≤ p.cStr.length)
include hpos

theorem charAt_cStr : p.path.charAt pos = p.cStr.charAt pos := by
  obtain ⟨rest, hp, hrest⟩ := exists_cStr p
  rw [hp]
  obtain hlt | rfl := Nat.lt_or_eq_of_le hpos
  · exact charAt_append_left hlt
  · rw [charAt_length]
    have hright := charAt_append_right (u := p.cStr) (v := rest) 0
    rw [Nat.add_zero] at hright
    rw [hright]
    cases rest with
    | nil => rfl
    | cons c rest => exact hrest c rfl

theorem takeWhile_cStr {cond : UInt8 → Bool} (hcond : cond 0 = false) :
    (p.path.drop pos).takeWhile cond = (p.cStr.drop pos).takeWhile cond := by
  obtain ⟨rest, hp, hrest⟩ := exists_cStr p
  have hnil : rest.takeWhile cond = [] := by
    cases rest with
    | nil => rfl
    | cons c rest => simp [hrest c rfl, hcond]
  rw [hp, List.drop_append_of_le_length hpos, List.takeWhile_append, hnil]
  split
  · rename_i hall
    rw [List.append_nil, ((List.takeWhile_prefix cond).eq_of_length hall)]
  · rfl

theorem scan_cStr {cond : UInt8 → Bool} (hcond : cond 0 = false) :
    pos + ((p.path.drop pos).takeWhile cond).length =
        pos + ((p.cStr.drop pos).takeWhile cond).length ∧
      pos + ((p.path.drop pos).takeWhile cond).length ≤ p.cStr.length := by
  have hle := (List.takeWhile_sublist (l := p.cStr.drop pos) cond).length_le
  rw [List.length_drop] at hle
  rw [takeWhile_cStr hpos hcond]
  exact ⟨rfl, by omega⟩

theorem skipSeparators_cStr : p.skipSeparators pos = skipSeparators ⟨p.cStr⟩ pos ∧
    p.skipSeparators pos ≤ p.cStr.length := by
  rw [skipSeparators, skipSeparators]
  exact scan_cStr hpos (by simp)

theorem skipName_cStr : p.skipName pos = skipName ⟨p.cStr⟩ pos ∧
    p.skipName pos ≤ p.cStr.length := by
  rw [skipName, skipName]
  exact scan_cStr hpos (by simp)

theorem substr_cStr {count : Nat} (hcount : pos + count ≤ p.cStr.length) :
    p.path.substr pos count = p.cStr.substr pos count := by
  obtain ⟨rest, hp, -⟩ := exists_cStr p
  rw [hp, Text.substr, Text.substr, List.drop_append_of_le_length hpos,
    List.take_append_of_le_length (by rw [List.length_drop]; omega)]

end

/-- Where an iterator of the string in front of the NUL can be. -/
def Within (p : Path) (it : Iterator) : Prop := ∀ pos, it.pos = some pos → pos ≤ p.cStr.length

theorem increment_cStr {it : Iterator} (h : p.Within it) :
    p.increment it = increment ⟨p.cStr⟩ it ∧ ∀ it', p.increment it = some it' → p.Within it' := by
  obtain ⟨_ | pos, element⟩ := it
  · exact ⟨rfl, fun it' hit' => by cases hit'⟩
  have hpos := h pos rfl
  obtain ⟨hseps, hsepsle⟩ := skipSeparators_cStr hpos
  obtain ⟨hname, hnamele⟩ := skipName_cStr hsepsle
  have hcount : p.skipSeparators pos + (p.skipName (p.skipSeparators pos) - p.skipSeparators pos) ≤
      p.cStr.length := by omega
  have hsub := substr_cStr hsepsle hcount
  rw [increment, increment]
  simp only [charAt_cStr hpos, ← hseps, charAt_cStr hsepsle, ← hname, hsub, true_and]
  intro it' hit'
  split at hit'
  · cases hit'
    intro q hq
    cases hq
  · split at hit'
    · cases hit'
      intro q hq
      cases hq
      exact hsepsle
    · cases hit'
      intro q hq
      cases hq
      exact hnamele

theorem begin_cStr (hne : p.cStr ≠ []) : p.begin = begin ⟨p.cStr⟩ ∧ p.Within p.begin := by
  have hzero : 0 ≤ p.cStr.length := Nat.zero_le _
  obtain ⟨hseps, hsepsle⟩ := skipSeparators_cStr hzero
  obtain ⟨hname, hnamele⟩ := skipName_cStr hsepsle
  have hcount : 0 + p.skipName (p.skipSeparators 0) ≤ p.cStr.length := by omega
  have hsub := substr_cStr hzero hcount
  have hpne : p.path ≠ [] := fun hnil => hne (by rw [cStr, hnil]; rfl)
  have hpos := List.length_pos_iff.mpr hne
  rw [begin, begin, if_neg hpne, if_neg hne]
  simp only [charAt_cStr hsepsle, ← hseps, ← hname, hsub, true_and]
  intro q hq
  split at hq
  · cases hq
    exact hpos
  · cases hq
    exact hnamele

/-- **Iteration ends with the first NUL.** -/
theorem yields_cStr (hne : p.cStr ≠ []) : p.Yields (elements p.cStr) := by
  obtain ⟨fuel, its, hwalk, hits⟩ := yields_elements ⟨p.cStr⟩ (nul_notMem_cStr p)
  obtain ⟨hbegin, hwithin⟩ := begin_cStr hne
  refine ⟨fuel, its, ?_, hits⟩
  rw [walkTo_congr (fun it h => increment_cStr h) hwithin, hbegin]
  exact hwalk

/-- In front of a NUL at the beginning of the string there is an empty element. -/
theorem yields_nul {text : Text} (hp : p.path = 0 :: text) : p.Yields [[]] := by
  have hbegin : p.begin = ⟨some 0, []⟩ := by
    simp [begin, skipSeparators, skipName, Text.substr, hp]
  have hnext : p.increment ⟨some 0, []⟩ = some ⟨none, []⟩ := by
    simp [increment, Text.charAt, hp]
  rw [Yields, hbegin]
  exact walk_step hnext (walk_end [])

/-- What iteration yields for any string. -/
theorem exists_yields (p : Path) :
    p.path ≠ [] ∧ p.cStr = [] ∧ p.Yields [[]] ∨
      (p.path = [] ∨ p.cStr ≠ []) ∧ p.Yields (elements p.cStr) := by
  by_cases hne : p.cStr = []
  · obtain ⟨_ | ⟨c, text⟩⟩ := p
    · exact .inr ⟨.inl rfl, yields_elements ⟨[]⟩ (by simp)⟩
    · obtain rfl : c = 0 := by
        by_contra hc
        simp [cStr, hc] at hne
      exact .inl ⟨by simp, hne, yields_nul rfl⟩
  · exact .inr ⟨.inr hne, yields_cStr hne⟩

end Acatl.Path
