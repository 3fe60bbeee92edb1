/-
Acatl.PathIteration — the iterators of a path, forwards and backwards.

`++` and `--` are scanners of their own. `Piece front element back` says how an
element lies in its path; `increment_name`, `increment_dot` and `increment_end`
are what `++` does behind a piece, and `scanBack_piece` is what `--` does that
comes back to it.

`--` takes whatever it finds at the beginning of the string for the root, and
two characters before the last separators for those of a net path. Both go
wrong for a first element of one character, and the path `"//"` has no way back
to its only element (`increment_decrement_fails`). `Steady` paths have none of
this, and for these the two directions agree (`iteration_agrees_iff`).
-/
import Acatl.Lib.Bidirectional
import Acatl.Path
import Mathlib.Data.List.Basic
import Mathlib.Data.List.GetD
import Mathlib.Data.List.TakeWhile

namespace Acatl.Path

open Acatl.Lib.Bidirectional

/-! ## §1 Separators and names -/

def AllSeparators (t : Text) : Prop := ∀ c ∈ t, c = separator

section

variable {t : Text} (h : AllSeparators t)
include h

theorem AllSeparators.eq_single (hlen : t.length = 1) : t = [separator] :=
  List.eq_replicate_iff.mpr ⟨hlen, h⟩

theorem AllSeparators.eq_double (hlen : t.length = 2) : t = [separator, separator] :=
  List.eq_replicate_iff.mpr ⟨hlen, h⟩

theorem AllSeparators.exists_tail (hne : t ≠ []) :
    ∃ others, t = separator :: others ∧ AllSeparators others := by
  obtain ⟨c, others, rfl⟩ := List.exists_cons_of_ne_nil hne
  obtain ⟨rfl, hothers⟩ := List.forall_mem_cons.mp h
  exact ⟨others, rfl, hothers⟩

end

/-- Characters of an element, without separators. -/
def Plain (t : Text) : Prop := ∀ c ∈ t, c ≠ 0 ∧ c ≠ separator

/-- What can stand between separators. -/
def Ordinary (t : Text) : Prop := Plain t ∧ t ≠ []

theorem Plain.notMem {t : Text} (h : Plain t) : separator ∉ t := fun hmem => (h _ hmem).2 rfl

theorem Plain.nul_notMem {t : Text} (h : Plain t) : (0 : UInt8) ∉ t := fun hmem => (h 0 hmem).1 rfl

/-- The end of the string, or a separator. -/
def AtSeparator (t : Text) : Prop := ∀ c, t.head? = some c → c = separator

theorem separator_ne_zero : separator ≠ 0 := by decide

theorem atSeparator_nil : AtSeparator [] := by simp [AtSeparator]

/-- What is left of a path is separators, a name, and again what begins with a
separator. -/
theorem exists_split {back : Text} (hnul : (0 : UInt8) ∉ back) :
    ∃ seps name rest, back = seps ++ (name ++ rest) ∧ AllSeparators seps ∧ Plain name ∧
      AtSeparator rest ∧ (name = [] → rest = []) := by
  have hseps := List.takeWhile_append_dropWhile (p := fun c => c = separator) (l := back)
  generalize hleft : back.dropWhile (fun c => c = separator) = left at hseps
  have hname := List.takeWhile_append_dropWhile (p := fun c => c ≠ separator) (l := left)
  have hleftnul : (0 : UInt8) ∉ left := by
    intro h
    exact hnul (by rw [← hseps]; simp [h])
  refine ⟨_, left.takeWhile fun c => c ≠ separator, left.dropWhile fun c => c ≠ separator,
    by rw [hname, hseps], ?_, ?_, ?_, ?_⟩
  · intro c hc
    simpa using List.mem_takeWhile_imp hc
  · intro c hc
    have hmem : c ∈ left := (List.takeWhile_sublist _).subset hc
    exact ⟨fun h => hleftnul (h ▸ hmem), by simpa using List.mem_takeWhile_imp hc⟩
  · intro c hc
    have hhead := List.head?_dropWhile_not (fun c => decide (c ≠ separator)) left
    rw [hc] at hhead
    simpa using hhead
  · intro hnil
    cases left with
    | nil => rfl
    | cons c cs =>
      have hc : ¬ c = separator := by
        have hhead := List.head?_dropWhile_not (fun c => decide (c = separator)) back
        rw [hleft] at hhead
        simpa using hhead
      simp [hc] at hnil

/-! ## §2 The characters of a path -/

section

variable {u v : Text}

theorem charAt_append_right (i : Nat) :
    Text.charAt (u ++ v) (u.length + i) = Text.charAt v i := by
  rw [Text.charAt, List.getD_append_right _ _ _ _ (by omega), Nat.add_sub_cancel_left]
  rfl

theorem charAt_append_left {i : Nat} (h : i < u.length) :
    Text.charAt (u ++ v) i = Text.charAt u i := by
  exact List.getD_append _ _ _ _ h

theorem charAt_mem {i : Nat} (h : i < u.length) : u.charAt i ∈ u := by
  simp [Text.charAt, h]

theorem charAt_length (u : Text) : u.charAt u.length = 0 := by simp [Text.charAt]

/-- A character in the middle of a text. -/
theorem charAt_middle {w : Text} {i : Nat} (hleft : u.length ≤ i)
    (hright : i < u.length + w.length) : Text.charAt (u ++ w ++ v) i ∈ w := by
  obtain ⟨k, rfl⟩ := Nat.exists_eq_add_of_le hleft
  have hk : k < w.length := by omega
  rw [List.append_assoc, charAt_append_right, charAt_append_left hk]
  exact charAt_mem hk

theorem substr_middle (u w v : Text) :
    Text.substr (u ++ w ++ v) u.length w.length = w := by
  simp [Text.substr]

end

variable {p : Path}

theorem skipSeparators_eq {u seps v : Text} (hp : p.path = u ++ seps ++ v)
    (hseps : AllSeparators seps) (hv : v.head? ≠ some separator) :
    p.skipSeparators u.length = u.length + seps.length := by
  have htake : (seps ++ v).takeWhile (fun c => c ≠ 0 ∧ c = separator) = seps := by
    rw [List.takeWhile_append_of_pos]
    · cases v with
      | nil => simp
      | cons c cs =>
        have hc : c ≠ separator := by simpa using hv
        simp [hc]
    · intro c hc
      simp [hseps c hc, separator_ne_zero]
  rw [skipSeparators, hp, List.append_assoc, List.drop_left, htake]

theorem skipName_eq {u name v : Text} (hp : p.path = u ++ name ++ v) (hname : Plain name)
    (hv : AtSeparator v) : p.skipName u.length = u.length + name.length := by
  have htake : (name ++ v).takeWhile (fun c => c ≠ 0 ∧ c ≠ separator) = name := by
    rw [List.takeWhile_append_of_pos]
    · cases v with
      | nil => simp
      | cons c cs =>
        have hc : c = separator := hv c rfl
        simp [hc]
    · intro c hc
      simp [hname c hc]
  rw [skipName, hp, List.append_assoc, List.drop_left, htake]

/-- A backward scan runs over what meets its condition, and not further. -/
theorem backWhile_eq {cond : UInt8 → Bool} {i j : Nat} (hij : j ≤ i)
    (hrun : ∀ k, j < k → k ≤ i → cond (p.path.charAt k) = true)
    (hstop : j = 0 ∨ cond (p.path.charAt j) = false) : p.backWhile cond i = j := by
  induction i with
  | zero =>
    obtain rfl : j = 0 := by omega
    rfl
  | succ i ih =>
    rw [backWhile]
    by_cases hj : j = i + 1
    · rcases hstop with h | h
      · omega
      · rw [← hj, h]
        simp
    · rw [hrun (i + 1) (by omega) (Nat.le_refl _), if_pos rfl]
      exact ih (by omega) fun k hk hki => hrun k hk (by omega)

/-! ## §3 Pieces -/

/-- How an element lies in its path: what is before it, the element, and what
is behind it. -/
inductive Piece : Text → Text → Text → Prop
  | root {back : Text} (hnet : ∀ c rest, back = separator :: c :: rest → c = separator) :
      Piece [] [separator] back
  | net {name back : Text} (hne : name ≠ []) (hname : Plain name) (hback : AtSeparator back) :
      Piece [] ([separator, separator] ++ name) back
  | first {name back : Text} (hlen : 2 ≤ name.length) (hname : Plain name)
      (hback : AtSeparator back) : Piece [] name back
  | inner {front name back : Text} (hfront : front.getLast? = some separator)
      (hlen : front.length ≠ 2) (hne : name ≠ []) (hname : Plain name)
      (hback : AtSeparator back) : Piece front name back

/-- The iterator of a piece. -/
def iteratorAt (front element : Text) : Iterator := ⟨some (front.length + element.length), element⟩

/-- The last character of a text. -/
theorem charAt_last {t : Text} {c : UInt8} (h : t.getLast? = some c) :
    t.charAt (t.length - 1) = c := by
  rw [List.getLast?_eq_getElem?] at h
  rw [Text.charAt, List.getD_eq_getElem?_getD, h, Option.getD_some]

/-- The separators in front of the position are scanned over. -/
theorem backWhile_separators {front seps v : Text} (hp : p.path = front ++ seps ++ v)
    (hseps : AllSeparators seps) (hfront : front.length ≤ 1 ∨
      p.path.charAt (front.length - 1) ≠ separator) :
    p.backWhile (· = separator) (front.length + seps.length - 1) = front.length - 1 := by
  refine backWhile_eq (by omega) ?_ ?_
  · intro k hk hki
    have hmem := charAt_middle (u := front) (v := v) (w := seps) (i := k) (by omega) (by omega)
    rw [← hp] at hmem
    simp [hseps _ hmem]
  · rcases hfront with h | h
    · exact .inl (by omega)
    · exact .inr (by simp [h])

/-- Only separators are left: this is the root. -/
theorem scanBack_root {front seps v : Text} (hp : p.path = front ++ seps ++ v)
    (hfront : front.length = 1) (hseps : AllSeparators seps) :
    p.scanBack (front.length + seps.length) = ⟨some 1, [separator]⟩ := by
  have hscan := backWhile_separators hp hseps (.inl (by omega))
  rw [hfront] at hscan ⊢
  simp only [scanBack, hscan]
  rfl

theorem lastPlain {name : Text} (hname : Plain name) {u v : Text} (hp : p.path = u ++ name ++ v)
    {i : Nat} (hleft : u.length ≤ i) (hright : i < u.length + name.length) :
    p.path.charAt i ≠ separator := by
  have hmem := charAt_middle (v := v) hleft hright
  rw [← hp] at hmem
  exact (hname _ hmem).2

/-- A name at the beginning of the path, of more than one character. -/
theorem scanBack_first {name seps v : Text} (hp : p.path = name ++ seps ++ v)
    (hlen : 2 ≤ name.length) (hname : Plain name) (hseps : AllSeparators seps) :
    p.scanBack (name.length + seps.length) = ⟨some name.length, name⟩ := by
  have hplain : ∀ i, i < name.length → p.path.charAt i ≠ separator := by
    intro i hi
    exact lastPlain hname (u := []) (by rw [hp, List.nil_append, List.append_assoc])
      (Nat.zero_le i) (by simpa using hi)
  have hscan := backWhile_separators hp hseps (.inr (hplain _ (by omega)))
  have hrun : p.backWhile (· ≠ separator) (name.length - 1) = 0 := by
    refine backWhile_eq (Nat.zero_le _) ?_ (.inl rfl)
    intro k _ hk
    simp [hplain k (by omega)]
  have htail : name.length + seps.length -
      (name.length + seps.length - (name.length - 1) - 1) = name.length := by omega
  have hzero : p.path.charAt 0 ≠ separator := hplain 0 (by omega)
  simp only [scanBack, hscan, htail, hrun, if_neg (by omega : ¬ name.length - 1 = 0),
    if_neg hzero]
  simp [backWhile, hp, Text.substr]

/-- A name behind a separator, and what `--` makes of two characters before it. -/
theorem scanBack_behind {front name seps v : Text} (hp : p.path = front ++ name ++ seps ++ v)
    (hfront : front.getLast? = some separator) (hne : name ≠ []) (hname : Plain name)
    (hseps : AllSeparators seps) :
    p.scanBack (front.length + name.length + seps.length) =
      let s := p.backWhile (· = separator) (front.length - 1)
      let tmp := if front.length - s = 2 ∧ s = 0 then s else front.length
      ⟨some (front.length + name.length),
        p.path.substr tmp (front.length + name.length - tmp)⟩ := by
  have hfrontne : front ≠ [] := by
    intro h
    simp [h] at hfront
  have hfrontpos : 0 < front.length := List.length_pos_iff.mpr hfrontne
  have hnamepos : 0 < name.length := List.length_pos_iff.mpr hne
  have hplain : ∀ i, front.length ≤ i → i < front.length + name.length →
      p.path.charAt i ≠ separator := by
    intro i hleft hright
    exact lastPlain hname (v := seps ++ v) (by rw [hp, List.append_assoc]) hleft hright
  have hsep : p.path.charAt (front.length - 1) = separator := by
    rw [hp, List.append_assoc, List.append_assoc, charAt_append_left (by omega),
      charAt_last hfront]
  have hscan := backWhile_separators hp hseps
    (.inr (hplain _ (by rw [List.length_append]; omega) (by rw [List.length_append]; omega)))
  rw [List.length_append] at hscan
  have hrun : p.backWhile (· ≠ separator) (front.length + name.length - 1) =
      front.length - 1 := by
    refine backWhile_eq (by omega) ?_ (.inr (by simp [hsep]))
    intro k hleft hright
    simp [hplain k (by omega) (by omega)]
  have htail : front.length + name.length + seps.length -
      (front.length + name.length + seps.length - (front.length + name.length - 1) - 1) =
        front.length + name.length := by omega
  have hback : front.length - 1 + 1 = front.length := by omega
  simp only [scanBack, hscan, htail, hrun, hsep, hback,
    if_neg (by omega : ¬ front.length + name.length - 1 = 0), if_true]

/-- **Behind a piece and some separators, `--` comes back to the piece.** -/
theorem scanBack_piece {front element back seps v : Text} (h : Piece front element back)
    (hp : p.path = front ++ element ++ seps ++ v) (hseps : AllSeparators seps) :
    p.scanBack (front.length + element.length + seps.length) = iteratorAt front element := by
  cases h with
  | root _ =>
    rw [List.nil_append] at hp
    rw [List.length_nil, Nat.zero_add, scanBack_root hp rfl hseps]
    rfl
  | @net name _ hne hname _ =>
    have hpath : p.path = [separator, separator] ++ name ++ seps ++ v := by simpa using hp
    have hlength : ([] : Text).length + ([separator, separator] ++ name).length + seps.length =
        [separator, separator].length + name.length + seps.length := by
      simp
      omega
    have hback : p.backWhile (· = separator) 1 = 0 := by
      have hfirst : p.path.charAt 1 = separator := by rw [hpath]; rfl
      simp [backWhile, hfirst]
    rw [hlength, scanBack_behind hpath rfl hne hname hseps]
    simp only [List.length_cons, List.length_nil, hback, if_true, Nat.reduceAdd, Nat.reduceSub,
      true_and]
    have hsum : 2 + name.length = ([separator, separator] ++ name).length := by
      simp
      omega
    have hsub : p.path.substr 0 ([separator, separator] ++ name).length =
        [separator, separator] ++ name := by
      rw [hpath, List.append_assoc]
      exact substr_middle [] _ _
    rw [Nat.sub_zero, hsum, hsub, iteratorAt, List.length_nil, Nat.zero_add]
  | first hlen hname _ =>
    rw [List.nil_append] at hp
    rw [List.length_nil, Nat.zero_add, scanBack_first hp hlen hname hseps, iteratorAt,
      List.length_nil, Nat.zero_add]
  | inner hfront hlen hne hname _ =>
    rw [scanBack_behind hp hfront hne hname hseps]
    have hnot : ¬ (front.length - p.backWhile (· = separator) (front.length - 1) = 2 ∧
        p.backWhile (· = separator) (front.length - 1) = 0) := by omega
    dsimp only
    rw [if_neg hnot, Nat.add_sub_cancel_left, hp, List.append_assoc, substr_middle, iteratorAt]

/-! ## §4 Steps forwards -/

theorem increment_end {pos : Nat} (hpos : p.path.length = pos) (element : Text) :
    p.increment ⟨some pos, element⟩ = some ⟨none, element⟩ := by
  simp [increment, ← hpos, charAt_length]

/-- Before the end of a string without NUL there is no NUL. -/
theorem charAt_ne_zero {u v : Text} (hnul : (0 : UInt8) ∉ p.path) (hp : p.path = u ++ v)
    (hv : v ≠ []) : p.path.charAt u.length ≠ 0 := by
  intro hzero
  refine hnul ?_
  rw [← hzero]
  refine charAt_mem ?_
  have := List.length_pos_iff.mpr hv
  rw [hp, List.length_append]
  omega

theorem increment_dot {u seps : Text} (hnul : (0 : UInt8) ∉ p.path) (hp : p.path = u ++ seps)
    (hseps : AllSeparators seps) (hne : seps ≠ []) (element : Text) :
    p.increment ⟨some u.length, element⟩ = some ⟨some p.path.length, [dot]⟩ := by
  have hpath : p.path = u ++ seps ++ [] := by rw [hp, List.append_nil]
  have hskip := skipSeparators_eq hpath hseps (by simp)
  have hlength : p.path.length = u.length + seps.length := by rw [hp, List.length_append]
  have hlast : p.path.charAt (u.length + seps.length) = 0 := by rw [← hlength, charAt_length]
  simp [increment, charAt_ne_zero hnul hp hne, hskip, hlast, hlength]

theorem increment_name {u seps name v : Text} (hnul : (0 : UInt8) ∉ p.path)
    (hp : p.path = u ++ (seps ++ (name ++ v))) (hseps : AllSeparators seps) (hne : name ≠ [])
    (hname : Plain name) (hv : AtSeparator v) (element : Text) :
    p.increment ⟨some u.length, element⟩ = some (iteratorAt (u ++ seps) name) := by
  have hhead : (name ++ v).head? ≠ some separator := by
    cases name with
    | nil => exact absurd rfl hne
    | cons c cs => simpa using (hname c (by simp)).2
  have hbehind : p.path = u ++ seps ++ (name ++ v) := by rw [hp, List.append_assoc]
  have hpath : p.path = u ++ seps ++ name ++ v := by rw [hbehind, ← List.append_assoc]
  have hskip := skipSeparators_eq hbehind hseps hhead
  have hat := charAt_ne_zero hnul hbehind (by simp [hne])
  have hscan := skipName_eq hpath hname hv
  have hsub : p.path.substr (u ++ seps).length name.length = name := by
    rw [hpath, substr_middle]
  rw [List.length_append] at hat hscan hsub
  have hrest : seps ++ (name ++ v) ≠ [] := by simp [hne]
  simp [increment, charAt_ne_zero hnul hp hrest, hskip, hat, hscan, hsub, iteratorAt]

/-- A step backwards from the end does not look at the element. -/
theorem decrement_end (element : Text) : p.decrement ⟨none, element⟩ = p.decrement p.end := rfl

theorem decrement_plain {c : UInt8} (hlast : p.path.getLast? = some c) (hc : c ≠ separator)
    : p.decrement p.end = some (p.scanBack p.path.length) := by
  simp [decrement, «end», hlast, hc]

/-- From the end of a path that ends with a name, back to that name. -/
theorem decrement_name {front name : Text} (h : Piece front name [])
    (hp : p.path = front ++ name) {c : UInt8} (hlast : name.getLast? = some c)
    (hc : c ≠ separator) : p.decrement p.end = some (iteratorAt front name) := by
  have hpath : p.path.getLast? = some c := by rw [hp, List.getLast?_append, hlast]; rfl
  have hends : p.path = front ++ name ++ [] ++ [] := by simpa using hp
  have hback := scanBack_piece h hends (by simp [AllSeparators])
  have hlength : p.path.length = front.length + name.length + ([] : Text).length := by
    rw [hp, List.length_append, List.length_nil, Nat.add_zero]
  rw [decrement_plain hpath hc, hlength, hback]

theorem Plain.getLast {name : Text} (hname : Plain name) (hne : name ≠ []) :
    ∃ c, name.getLast? = some c ∧ c ≠ separator :=
  ⟨name.getLast hne, List.getLast?_eq_some_getLast hne, (hname _ (List.getLast_mem hne)).2⟩

/-- **From the end, back to the last piece**, if nothing is behind it. -/
theorem decrement_last {front element : Text} (h : Piece front element [])
    (hp : p.path = front ++ element) : p.decrement p.end = some (iteratorAt front element) := by
  have hpiece := h
  cases h with
  | root _ =>
    have hpath : p.path = [separator] := by simpa using hp
    simp [decrement, «end», hpath, iteratorAt]
  | @net name _ hne hname _ =>
    obtain ⟨c, hlast, hc⟩ := hname.getLast hne
    refine decrement_name hpiece hp (c := c) ?_ hc
    rw [List.getLast?_append, hlast]
    rfl
  | first hlen hname _ =>
    obtain ⟨c, hlast, hc⟩ := hname.getLast (by intro h; simp [h] at hlen)
    exact decrement_name hpiece hp hlast hc
  | inner _ _ hne hname _ =>
    obtain ⟨c, hlast, hc⟩ := hname.getLast hne
    exact decrement_name hpiece hp hlast hc

theorem Piece.length_pos {front element back : Text} (h : Piece front element back) :
    0 < element.length := by
  cases h with
  | root => simp
  | net hne => simp
  | first hlen => omega
  | inner _ _ hne => exact List.length_pos_iff.mpr hne

/-! ## §5 Chains of pieces -/

/-- From a name, back to what is before the separators in front of it. -/
theorem decrement_named {u seps name : Text} (hu : u ≠ []) :
    p.decrement (iteratorAt (u ++ seps) name) = some (p.scanBack (u.length + seps.length)) := by
  have hpos := List.length_pos_iff.mpr hu
  have hlt : name.length < (u ++ seps).length + name.length := by
    rw [List.length_append]
    omega
  simp only [iteratorAt, decrement, if_pos hlt, Nat.add_sub_cancel]
  rw [List.length_append]

/-- From the dot at the end of a path, back over all but one separator. -/
theorem decrement_dotted {u seps : Text} (hp : p.path = u ++ seps) (hu : u ≠ []) (hne : seps ≠ []) :
    p.decrement ⟨some p.path.length, [dot]⟩ =
      some (p.scanBack (u.length + seps.dropLast.length)) := by
  have hpos := List.length_pos_iff.mpr hne
  have hupos := List.length_pos_iff.mpr hu
  have hlength : p.path.length = u.length + seps.length := by rw [hp, List.length_append]
  have hback : p.path.length - 1 = u.length + seps.dropLast.length := by
    rw [hlength, List.length_dropLast]
    omega
  have hlt : 1 < p.path.length := by omega
  simp only [decrement, List.length_singleton, if_pos hlt, hback]

/-- All but the last separator, in the path. -/
theorem path_dropLast {u seps : Text} (hp : p.path = u ++ seps) (hne : seps ≠ []) :
    p.path = u ++ seps.dropLast ++ [seps.getLast hne] := by
  rw [hp, List.append_assoc, List.dropLast_concat_getLast]

theorem AllSeparators.dropLast {seps : Text} (hseps : AllSeparators seps) :
    AllSeparators seps.dropLast :=
  fun c hc => hseps c (List.dropLast_subset seps hc)

/-- From the end of a path that ends with a separator, back to the dot. -/
theorem decrement_end_dot {u seps : Text} (hp : p.path = u ++ seps) (hseps : AllSeparators seps)
    (hne : seps ≠ []) (hu : u ≠ []) :
    p.decrement p.end = some ⟨some p.path.length, [dot]⟩ := by
  have hlast : p.path.getLast? = some separator := by
    rw [hp, List.getLast?_append, List.getLast?_eq_some_getLast hne,
      hseps _ (List.getLast_mem hne)]
    rfl
  have hlt : 1 < p.path.length := by
    have := List.length_pos_iff.mpr hne
    have := List.length_pos_iff.mpr hu
    rw [hp, List.length_append]
    omega
  simp [decrement, «end», hlast, hlt]

/-- Between a piece that ends at a separator and a name there are separators. -/
theorem separators_before {seps name rest : Text} (hback : AtSeparator (seps ++ (name ++ rest)))
    (hne : name ≠ []) (hname : Plain name) : seps ≠ [] := by
  intro hnil
  subst hnil
  cases name with
  | nil => exact absurd rfl hne
  | cons c cs => exact (hname c (by simp)).2 (hback c rfl)

/-- **Behind a piece and separators, the next name is a piece.** -/
theorem Piece.next {front element seps name rest : Text}
    (h : Piece front element (seps ++ (name ++ rest))) (hseps : AllSeparators seps)
    (hne : name ≠ []) (hname : Plain name) (hrest : AtSeparator rest) :
    Piece (front ++ element ++ seps) name rest := by
  have hlast : seps ≠ [] → (front ++ element ++ seps).getLast? = some separator := by
    intro hsepsne
    rw [List.getLast?_append, List.getLast?_eq_some_getLast hsepsne,
      hseps _ (List.getLast_mem hsepsne)]
    rfl
  cases h with
  | root hnet =>
    refine .inner ?_ ?_ hne hname hrest
    · cases seps with
      | nil => rfl
      | cons c cs => exact hlast (by simp)
    · -- two separators and a name are a net path
      intro hlength
      obtain rfl := hseps.eq_single (by simpa using hlength)
      obtain ⟨d, ds, rfl⟩ := List.exists_cons_of_ne_nil hne
      exact (hname d (by simp)).2 (hnet d (ds ++ rest) (by simp))
  | net _ _ hback =>
    have hsepsne := separators_before hback hne hname
    refine .inner (hlast hsepsne) ?_ hne hname hrest
    have := List.length_pos_iff.mpr hsepsne
    simp only [List.nil_append, List.length_append, List.length_cons, List.length_nil]
    omega
  | first hlen _ hback =>
    have hsepsne := separators_before hback hne hname
    refine .inner (hlast hsepsne) ?_ hne hname hrest
    have := List.length_pos_iff.mpr hsepsne
    rw [List.nil_append, List.length_append]
    omega
  | inner hfront _ helement _ hback =>
    have hsepsne := separators_before hback hne hname
    refine .inner (hlast hsepsne) ?_ hne hname hrest
    have := List.length_pos_iff.mpr hsepsne
    have := List.length_pos_iff.mpr helement
    have hfrontne : front ≠ [] := by
      intro h
      simp [h] at hfront
    have := List.length_pos_iff.mpr hfrontne
    rw [List.length_append, List.length_append]
    omega

/-- From a piece on, the iterators are a chain up to the end of the path. -/
structure Chained (p : Path) (first : Iterator) (rest : List Iterator) (last : Iterator) : Prop where
  linked : Linked p.increment p.decrement first rest last
  ends : ∃ element, p.increment last = some ⟨none, element⟩
  back : p.decrement p.end = some last
  ahead : ∀ it ∈ rest, ∃ pos, it.pos = some pos ∧ ∀ pos', first.pos = some pos' → pos' < pos

/-- The last piece. -/
theorem chained_last {front element : Text} (h : Piece front element [])
    (hp : p.path = front ++ element) :
    p.Chained (iteratorAt front element) [] (iteratorAt front element) where
  linked := .last _
  ends := ⟨element, increment_end (by rw [hp, List.length_append]) element⟩
  back := decrement_last h hp
  ahead := by simp

/-- A piece in front of the separators at the end: the dot is behind them. -/
theorem chained_dot {front element seps : Text} (hnul : (0 : UInt8) ∉ p.path)
    (h : Piece front element seps) (hp : p.path = front ++ element ++ seps)
    (hseps : AllSeparators seps) (hsepsne : seps ≠ []) (hdone : front ++ element ≠ []) :
    p.Chained (iteratorAt front element) [⟨some p.path.length, [dot]⟩]
      ⟨some p.path.length, [dot]⟩ := by
  have hstep := increment_dot hnul hp hseps hsepsne element
  rw [List.length_append] at hstep
  have hprev : p.decrement ⟨some p.path.length, [dot]⟩ = some (iteratorAt front element) := by
    have hback := scanBack_piece h (path_dropLast hp hsepsne) hseps.dropLast
    rw [decrement_dotted hp hdone hsepsne, List.length_append, hback]
  refine ⟨.cons hstep hprev (.last _), ⟨[dot], increment_end rfl [dot]⟩,
    decrement_end_dot hp hseps hsepsne hdone, ?_⟩
  intro it hit
  obtain rfl := List.mem_singleton.mp hit
  refine ⟨_, rfl, ?_⟩
  intro pos hpos
  obtain rfl := Option.some.inj hpos
  have := List.length_pos_iff.mpr hsepsne
  rw [hp, List.length_append, List.length_append]
  omega

theorem exists_chained (hnul : (0 : UInt8) ∉ p.path) : ∀ (n : Nat) {front element back : Text},
    back.length ≤ n → Piece front element back → p.path = front ++ element ++ back →
    ∃ rest last, p.Chained (iteratorAt front element) rest last := by
  intro n
  induction n with
  | zero =>
    intro front element back hlen h hp
    obtain rfl : back = [] := List.length_eq_zero_iff.mp (by omega)
    rw [List.append_nil] at hp
    exact ⟨[], _, chained_last h hp⟩
  | succ n ih =>
    intro front element back hlen h hp
    have hbacknul : (0 : UInt8) ∉ back := fun h0 => hnul (by rw [hp]; simp [h0])
    obtain ⟨seps, name, rest, rfl, hseps, hname, hrest, hend⟩ := exists_split hbacknul
    have hdone : front ++ element ≠ [] := by
      intro hnil
      have := h.length_pos
      rw [(List.append_eq_nil_iff.mp hnil).2] at this
      exact absurd this (Nat.lt_irrefl 0)
    by_cases hne : name = []
    · obtain rfl : name = [] := hne
      obtain rfl : rest = [] := hend rfl
      rw [List.append_nil, List.append_nil] at hp h
      by_cases hsepsne : seps = []
      · subst hsepsne
        rw [List.append_nil] at hp
        exact ⟨[], _, chained_last h hp⟩
      · exact ⟨_, _, chained_dot hnul h hp hseps hsepsne hdone⟩
    · have hnext := h.next hseps hne hname hrest
      have hpath : p.path = front ++ element ++ seps ++ name ++ rest := by
        rw [hp]
        simp
      have hpos := List.length_pos_iff.mpr hne
      obtain ⟨others, last, hchain⟩ := ih (by simp at hlen; omega) hnext hpath
      have hstep := increment_name hnul hp hseps hne hname hrest element
      rw [List.length_append] at hstep
      have hprev : p.decrement (iteratorAt (front ++ element ++ seps) name) =
          some (iteratorAt front element) := by
        have hback := scanBack_piece (v := name ++ rest) h (by rw [hp]; simp) hseps
        rw [decrement_named hdone, List.length_append, hback]
      refine ⟨_ :: others, last, .cons hstep hprev hchain.linked, hchain.ends, hchain.back, ?_⟩
      have hbefore : ∀ pos, (iteratorAt front element).pos = some pos →
          pos < (front ++ element ++ seps).length + name.length := by
        intro pos hpos'
        obtain rfl := Option.some.inj hpos'
        simp
        omega
      intro it hit
      rcases List.mem_cons.mp hit with rfl | hit
      · exact ⟨_, rfl, hbefore⟩
      · obtain ⟨pos, hit, hahead⟩ := hchain.ahead it hit
        refine ⟨pos, hit, ?_⟩
        intro pos' hpos'
        exact Nat.lt_trans (hbefore pos' hpos') (hahead _ rfl)

/-! ## §6 Where the iteration begins -/

/-- The path begins with a separator and is not `"//"`, or its first element
has more than one character. -/
def Steady : Text → Prop
  | [] => True
  | [a] => a = separator
  | a :: b :: rest => if a = separator then ¬ (b = separator ∧ rest = []) else b ≠ separator

theorem skipSeparators_zero {seps v : Text} (hp : p.path = seps ++ v)
    (hseps : AllSeparators seps) (hv : v.head? ≠ some separator) :
    p.skipSeparators 0 = seps.length := by
  have hpath : p.path = [] ++ seps ++ v := hp
  have hskip := skipSeparators_eq hpath hseps hv
  rwa [List.length_nil, Nat.zero_add] at hskip

theorem Plain.head {name rest : Text} (hname : Plain name) (hend : name = [] → rest = []) :
    (name ++ rest).head? ≠ some separator := by
  cases name with
  | nil => simp [hend rfl]
  | cons c cs => simpa using (hname c (by simp)).2

theorem begin_root {seps v : Text} (hp : p.path = seps ++ v) (hseps : AllSeparators seps)
    (hv : v.head? ≠ some separator) (hlen : seps.length = 1 ∨ 2 < seps.length) :
    p.begin = iteratorAt [] [separator] := by
  have hne : p.path ≠ [] := by
    intro h
    have := (List.append_eq_nil_iff.mp (hp ▸ h)).1
    subst this
    simp at hlen
  have hskip := skipSeparators_zero hp hseps hv
  have hnot : ¬ (seps.length = 2 ∧ p.path.charAt seps.length ≠ 0) := by omega
  simp only [begin, if_neg hne, hskip, if_pos (And.intro hnot hlen)]
  rfl

/-- The other branch: the first element is a name, or that of a net path. -/
theorem begin_name {seps name rest : Text} (hp : p.path = seps ++ (name ++ rest))
    (hseps : AllSeparators seps) (hname : Plain name) (hne : name ≠ []) (hrest : AtSeparator rest)
    (hlen : seps = [] ∨ seps.length = 2) : p.begin = iteratorAt [] (seps ++ name) := by
  have hpathne : p.path ≠ [] := by simp [hp, hne]
  have hhead : (name ++ rest).head? ≠ some separator := hname.head fun h => absurd h hne
  have hskip := skipSeparators_zero hp hseps hhead
  have hpath : p.path = seps ++ name ++ rest := by rw [hp, List.append_assoc]
  have hscan := skipName_eq hpath hname hrest
  have hat : p.path.charAt seps.length ≠ 0 := by
    obtain ⟨c, cs, rfl⟩ := List.exists_cons_of_ne_nil hne
    rw [hp]
    have hchar := charAt_append_right (u := seps) (v := c :: cs ++ rest) 0
    rw [Nat.add_zero] at hchar
    rw [hchar]
    exact (hname c (by simp)).1
  have hnot : ¬ (¬ (seps.length = 2 ∧ p.path.charAt seps.length ≠ 0) ∧
      (seps.length = 1 ∨ 2 < seps.length)) := by
    rcases hlen with rfl | h
    · simp
    · simp [h, h ▸ hat]
  have hsub : p.path.substr 0 (seps ++ name).length = seps ++ name := by
    rw [hp, ← List.append_assoc]
    exact substr_middle [] (seps ++ name) rest
  rw [List.length_append] at hsub
  simp only [begin, if_neg hpathne, hskip, if_neg hnot, hscan, hsub]
  simp [iteratorAt]

/-- The first element of a steady path that begins with a name. -/
theorem Steady.two_le {name rest : Text} (h : Steady (name ++ rest)) (hname : Plain name)
    (hne : name ≠ []) (hrest : AtSeparator rest) : 2 ≤ name.length := by
  cases name with
  | nil => exact absurd rfl hne
  | cons a name =>
    have ha : a ≠ separator := (hname a (by simp)).2
    cases name with
    | cons b name => simp
    | nil =>
      cases rest with
      | nil => exact absurd h ha
      | cons b rest =>
        have hb : b = separator := hrest b rfl
        simp [Steady, ha, hb] at h

/-- Two separators alone are not steady. -/
theorem Steady.root_length {seps name rest : Text} (h : Steady (seps ++ (name ++ rest)))
    (hseps : AllSeparators seps) (hsepsne : seps ≠ []) (hend : name = [] → rest = [])
    (hnet : ¬ (seps.length = 2 ∧ name ≠ [])) : seps.length = 1 ∨ 2 < seps.length := by
  have hpos := List.length_pos_iff.mpr hsepsne
  by_cases htwo : seps.length = 2
  · exfalso
    have hnil : name = [] := by
      by_contra hnamene
      exact hnet ⟨htwo, hnamene⟩
    rw [hnil, hend hnil, hseps.eq_double htwo] at h
    simp [Steady] at h
  · omega

/-- **A steady path begins with a piece.** -/
theorem begin_piece (hne : p.path ≠ []) (hnul : (0 : UInt8) ∉ p.path) (h : Steady p.path) :
    ∃ element back, Piece [] element back ∧ p.path = element ++ back ∧
      p.begin = iteratorAt [] element := by
  obtain ⟨seps, name, rest, hp, hseps, hname, hrest, hend⟩ := exists_split hnul
  have hhead := hname.head hend
  by_cases hsepsne : seps = []
  · -- the path begins with a name
    subst hsepsne
    rw [List.nil_append] at hp
    have hnamene : name ≠ [] := by
      intro hnil
      rw [hnil, hend hnil] at hp
      exact hne hp
    have hlen : 2 ≤ name.length := Steady.two_le (hp ▸ h) hname hnamene hrest
    exact ⟨name, rest, .first hlen hname hrest, hp,
      begin_name hp hseps hname hnamene hrest (.inl rfl)⟩
  · by_cases hnet : seps.length = 2 ∧ name ≠ []
    · obtain ⟨hlen, hnamene⟩ := hnet
      refine ⟨seps ++ name, rest, ?_, by rw [hp, List.append_assoc],
        begin_name hp hseps hname hnamene hrest (.inr hlen)⟩
      rw [hseps.eq_double hlen]
      exact .net hnamene hname hrest
    · have hlen := Steady.root_length (hp ▸ h) hseps hsepsne hend hnet
      obtain ⟨seps, rfl, -⟩ := hseps.exists_tail hsepsne
      refine ⟨[separator], seps ++ (name ++ rest), .root ?_, by rw [hp]; rfl,
        begin_root hp hseps hhead hlen⟩
      intro c others hback
      cases seps with
      | nil =>
        rw [List.nil_append] at hback
        rw [hback] at hhead
        simp at hhead
      | cons b seps =>
        cases seps with
        | nil => simp at hlen
        | cons d seps =>
          obtain ⟨-, rfl, -⟩ : b = separator ∧ d = c ∧ seps ++ (name ++ rest) = others := by
            simpa using hback
          exact hseps d (by simp)

/-! ## §7 Both directions -/

/-- `++` from `begin()` visits some iterators up to `end()`; `--` from `end()`
visits the same, with the same elements, in the opposite order; and one step
undoes the other. -/
def IterationAgrees (p : Path) : Prop :=
  ∃ fuel its, walkTo p.increment (·.equal p.end) fuel p.begin = some its ∧
    (p.decrement p.end).bind (walkThrough p.decrement (·.equal p.begin) fuel) =
      some its.reverse ∧
    (∀ it ∈ its, (p.increment it).bind p.decrement = some it) ∧
    ∀ it ∈ its, ¬ it.equal p.begin → (p.decrement it).bind p.increment = some it

theorem agrees_of_steady (hne : p.path ≠ []) (hnul : (0 : UInt8) ∉ p.path)
    (h : Steady p.path) : p.IterationAgrees := by
  obtain ⟨element, back, hpiece, hp, hbegin⟩ := begin_piece hne hnul h
  obtain ⟨rest, last, hchain⟩ := exists_chained hnul back.length (Nat.le_refl _) hpiece hp
  rw [← hbegin] at hchain
  obtain ⟨stale, hends⟩ := hchain.ends
  have hbeginpos : p.begin.pos = some (element.length) := by rw [hbegin]; simp [iteratorAt]
  have hnotend : ∀ it ∈ p.begin :: rest, it.equal p.end = false := by
    intro it hit
    rcases List.mem_cons.mp hit with rfl | hit
    · simp [Iterator.equal, «end», hbeginpos]
    · obtain ⟨pos, hpos, -⟩ := hchain.ahead it hit
      simp [Iterator.equal, «end», hpos]
  have hnotbegin : ∀ it ∈ rest, it.equal p.begin = false := by
    intro it hit
    obtain ⟨pos, hpos, hahead⟩ := hchain.ahead it hit
    have hlt := hahead _ hbeginpos
    simp [Iterator.equal, hbeginpos, hpos]
    omega
  have hforth := walkTo_linked hchain.linked hends (by simp [Iterator.equal, «end»]) hnotend
  have hback := walkBack_linked hchain.linked (by simp [Iterator.equal]) hnotbegin 1
  refine ⟨rest.length + 2, p.begin :: rest, hforth, ?_, ?_, ?_⟩
  · rw [hchain.back, Option.bind_some, hback]
  · refine hchain.linked.next_prev ?_
    rw [hends, Option.bind_some, decrement_end, hchain.back]
  · intro it hit hnot
    rcases List.mem_cons.mp hit with rfl | hit
    · simp [Iterator.equal] at hnot
    · exact hchain.linked.prev_next it hit

/-- A first element of one character, from which `++` and `--` lead to the root. -/
theorem short_undone {a : UInt8} {back : Text} (hnul : (0 : UInt8) ∉ p.path)
    (hp : p.path = [a] ++ back) (ha : a ≠ separator) (hback : AtSeparator back) :
    p.begin = ⟨some 1, [a]⟩ ∧
      (p.increment ⟨some 1, [a]⟩).bind p.decrement = some ⟨some 1, [separator]⟩ := by
  have ha0 : a ≠ 0 := by
    intro h
    exact hnul (by simp [hp, h])
  have hplain : Plain [a] := by simpa [Plain] using ⟨ha0, ha⟩
  have hpath : p.path = [] ++ ([a] ++ back) := hp
  have hbegin := begin_name hpath (by simp [AllSeparators]) hplain (by simp) hback (.inl rfl)
  refine ⟨hbegin, ?_⟩
  have hbacknul : (0 : UInt8) ∉ back := fun h0 => hnul (by rw [hp]; simp [h0])
  obtain ⟨seps, name, rest, rfl, hseps, hname, hrest, hend⟩ := exists_split hbacknul
  have hone : ([a] : Text).length = 1 := rfl
  by_cases hne : name = []
  · obtain rfl : name = [] := hne
    obtain rfl : rest = [] := hend rfl
    rw [List.append_nil, List.append_nil] at hp
    by_cases hsepsne : seps = []
    · subst hsepsne
      rw [List.append_nil] at hp
      have hlength : p.path.length = 1 := by rw [hp]; rfl
      have hlast : p.path.getLast? = some a := by rw [hp]; rfl
      have hends : p.path = [a] ++ [] ++ [] := hp
      have hroot := scanBack_root hends rfl (by simp [AllSeparators])
      rw [increment_end hlength, Option.bind_some, decrement_end, decrement_plain hlast ha,
        hlength]
      exact congrArg some hroot
    · have hstep := increment_dot hnul hp hseps hsepsne [a]
      rw [hone] at hstep
      rw [hstep, Option.bind_some, decrement_dotted hp (by simp) hsepsne,
        scanBack_root (path_dropLast hp hsepsne) rfl hseps.dropLast]
  · have hstep := increment_name hnul hp hseps hne hname hrest [a]
    rw [hone] at hstep
    rw [hstep, Option.bind_some, decrement_named (by simp),
      scanBack_root (v := name ++ rest) (by rw [hp, List.append_assoc]) rfl hseps]

/-- **Elsewhere the way forwards from `begin()` is not undone.** -/
theorem begin_undone (hne : p.path ≠ []) (hnul : (0 : UInt8) ∉ p.path) (h : ¬ Steady p.path) :
    p.begin.pos ≠ none ∧ (p.increment p.begin).bind p.decrement ≠ some p.begin := by
  have hshort : ∀ a back, p.path = [a] ++ back → a ≠ separator → AtSeparator back →
      p.begin.pos ≠ none ∧ (p.increment p.begin).bind p.decrement ≠ some p.begin := by
    intro a back hp ha hback
    obtain ⟨hbegin, hundone⟩ := short_undone hnul hp ha hback
    rw [hbegin, hundone]
    simp [Ne.symm ha]
  obtain ⟨path⟩ := p
  match path, h with
  | [], _ => exact absurd rfl hne
  | [a], h => exact hshort a [] rfl h (by simp [AtSeparator])
  | a :: b :: rest, h =>
    by_cases ha : a = separator
    · obtain ⟨rfl, rfl⟩ : b = separator ∧ rest = [] := by simpa [Steady, ha] using h
      subst ha
      decide
    · have hb : b = separator := by simpa [Steady, ha] using h
      exact hshort a (b :: rest) rfl ha (by simp [AtSeparator, hb])

/-- **Forward and backward iteration agree exactly for the steady paths.** -/
theorem iteration_agrees_iff (p : Path) (hne : p.path ≠ []) (hnul : (0 : UInt8) ∉ p.path) :
    p.IterationAgrees ↔ Steady p.path := by
  refine ⟨?_, agrees_of_steady hne hnul⟩
  intro hagrees
  obtain ⟨fuel, its, hwalk, -, hundo, -⟩ := hagrees
  by_contra hnot
  obtain ⟨hpos, hundone⟩ := begin_undone hne hnul hnot
  refine hundone (hundo _ (mem_walkTo hwalk ?_))
  exact decide_eq_false hpos

/-- `"/a"`. -/
theorem iteration_agrees_iff_root : IterationAgrees ⟨[47, 97]⟩ ↔ Steady [47, 97] :=
  iteration_agrees_iff ⟨[47, 97]⟩ (by decide) (by decide)

/-- `"a/b"`: behind its first element `++` comes to `"b"`, and from there `--`
comes to the root. -/
theorem iteration_disagrees :
    ¬ ∀ p : Path, p.path ≠ [] → (0 : UInt8) ∉ p.path → p.IterationAgrees := by
  intro h
  obtain ⟨fuel, its, hwalk, -, hundo, -⟩ := h ⟨[97, 47, 98]⟩ (by decide) (by decide)
  have hundone := hundo _ (mem_walkTo hwalk (by decide))
  exact absurd hundone (by decide)

end Acatl.Path
