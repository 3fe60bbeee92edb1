/-
Acatl.PathDecomposition — `parent_path` and `filename`, which scan a path from
its end.

`Ends front seps name` says how a path ends; `parentPath_eq`, `filename_name`
and `filename_dot` are what the scans make of that, and `elements_append` is what
forward iteration does. They come apart if the scan for the parent comes to the
beginning of the string (`splits_iff`).
-/
import Acatl.PathElements

namespace Acatl.Path

open Acatl.Lib

/-! ## §1 The scans from the end -/

variable {p : Path} {front seps name : Text}

/-- A scan backwards over what meets its condition. -/
theorem backWhile_behind {cond : UInt8 → Bool} {back rest : Text}
    (hp : p.path = front ++ back ++ rest) (hback : ∀ c ∈ back, cond c = true)
    (hfront : ∀ c ∈ front.getLast?, cond c = false) :
    p.backWhile cond (front.length + back.length - 1) = front.length - 1 := by
  refine backWhile_eq (by omega) ?_ ?_
  · intro k hk hki
    have hmem := charAt_middle (u := front) (v := rest) (w := back) (i := k) (by omega) (by omega)
    rw [← hp] at hmem
    exact hback _ hmem
  · by_cases hnil : front = []
    · exact .inl (by simp [hnil])
    · refine .inr ?_
      have hlast := List.getLast?_eq_some_getLast hnil
      have hpos := List.length_pos_iff.mpr hnil
      rw [hp, List.append_assoc, charAt_append_left (by omega), charAt_last hlast]
      exact hfront _ hlast

section

variable (h : Ends front seps name)
include h

theorem Ends.seps_last : ∀ c ∈ (front ++ seps).getLast?, c = separator := by
  intro c hc
  by_cases hnil : seps = []
  · simp [hnil, h.between hnil] at hc
  · rw [List.getLast?_append, List.getLast?_eq_some_getLast hnil] at hc
    obtain rfl := Option.some.inj hc
    exact h.separators _ (List.getLast_mem hnil)

/-- Both scans of `parent_path`. -/
theorem Ends.scans (hp : p.path = front ++ seps ++ name) :
    p.backWhile (· ≠ separator) (p.path.length - 1) = (front ++ seps).length - 1 ∧
      p.backWhile (· = separator) ((front ++ seps).length - 1) = front.length - 1 := by
  constructor
  · have hpath : p.path = (front ++ seps) ++ name ++ [] := by rw [hp, List.append_nil]
    have hlength : p.path.length = (front ++ seps).length + name.length := by
      rw [hp, List.length_append]
    rw [hlength]
    exact backWhile_behind hpath (fun c hc => by simp [(h.plain c hc).2])
      fun c hc => by simp [h.seps_last c hc]
  · rw [List.length_append]
    exact backWhile_behind hp (fun c hc => by simp [h.separators c hc])
      fun c hc => by simp [h.stop c hc]

/-- A path begins with its only separator, and has a name behind it. -/
theorem Ends.lone_separator (hp : p.path = front ++ seps ++ name) :
    (0 < p.path.length - 1 ∧ p.path.charAt 0 = separator ∧ (front ++ seps).length - 1 = 0) ↔
      front = [] ∧ seps.length = 1 ∧ name ≠ [] := by
  have hlength : p.path.length = front.length + seps.length + name.length := by
    rw [hp, List.length_append, List.length_append]
  refine ⟨fun hscanned => ?_, fun hends => ?_⟩
  · obtain ⟨hlen, hchar, hstop⟩ := hscanned
    rw [List.length_append] at hstop
    have hfront : front = [] := by
      by_contra hne
      have hpos := List.length_pos_iff.mpr hne
      have hsepspos := List.length_pos_iff.mpr (h.ne_nil hne)
      omega
    subst hfront
    have hne : seps ≠ [] := by
      intro hnil
      rw [hp, hnil] at hchar
      cases name with
      | nil => exact absurd hchar (by decide)
      | cons c cs => exact (h.plain c (by simp)).2 hchar
    have hpos := List.length_pos_iff.mpr hne
    rw [List.length_nil] at hstop hlength
    have hone : seps.length = 1 := by omega
    refine ⟨rfl, hone, fun hnil => ?_⟩
    rw [hnil, List.length_nil] at hlength
    omega
  · obtain ⟨rfl, hone, hne⟩ := hends
    have hpos := List.length_pos_iff.mpr hne
    obtain rfl := AllSeparators.eq_single h.separators hone
    rw [List.length_nil, List.length_singleton] at hlength
    exact ⟨by omega, by rw [hp]; rfl, rfl⟩

/-- What is in front of the last separators, or the root in front of a name. -/
theorem parentPath_eq (hp : p.path = front ++ seps ++ name) :
    p.parentPath.path =
      if 2 ≤ front.length then front
      else if front = [] ∧ seps.length = 1 ∧ name ≠ [] then [separator]
      else [] := by
  obtain ⟨hstart, hscan⟩ := h.scans hp
  have hlength : p.path.length = front.length + seps.length + name.length := by
    rw [hp, List.length_append, List.length_append]
  have hroot := h.lone_separator hp
  by_cases hempty : p.path = []
  · rw [hempty] at hlength hroot
    have hlong : ¬ 2 ≤ front.length := by
      rw [List.length_nil] at hlength
      omega
    have hnone : ¬ (front = [] ∧ seps.length = 1 ∧ name ≠ []) := hroot.not.mp (by simp)
    rw [parentPath, if_pos hempty, if_neg hlong, if_neg hnone]
  by_cases hlong : 2 ≤ front.length
  · have hlast : front.length - 1 + 1 = front.length := by omega
    have hsub : p.path.substr 0 front.length = front := by
      rw [hp, List.append_assoc]
      exact substr_middle [] front _
    simp only [parentPath, if_neg hempty, hstart, hscan, if_pos hlong, hlast, hsub,
      if_pos (by omega : 0 < p.path.length - 1), if_pos (by omega : 0 < front.length - 1)]
  · -- the second scan comes to the beginning of the string
    have hzero : front.length - 1 = 0 := by omega
    simp only [parentPath, if_neg hempty, hstart, hscan, if_neg hlong, hzero, Nat.lt_irrefl,
      if_false, Nat.sub_zero, ← hroot]
    by_cases hlen : 0 < p.path.length - 1
    · simp only [hlen, if_true, true_and]
      exact apply_ite Path.path _ _ _
    · simp only [hlen, if_false, false_and]

omit h in
theorem fromPointer_eq {u v : Text} (hnul : (0 : UInt8) ∉ p.path) (hp : p.path = u ++ v) :
    (p.fromPointer u.length).path = v := by
  rw [fromPointer, hp, List.drop_left, List.takeWhile_eq_self_iff]
  intro c hc
  simpa using fun h0 : c = 0 => hnul (by rw [hp, ← h0]; simp [hc])

/-- The last separator of a path with a name behind it. -/
theorem Ends.char_last (hp : p.path = front ++ seps ++ name) (hne : seps ≠ []) :
    p.path.charAt ((front ++ seps).length - 1) = separator := by
  have hsome := List.getLast?_eq_some_getLast (l := front ++ seps) (by simp [hne])
  have hpos := List.length_pos_iff.mpr hne
  rw [hp, charAt_append_left (by rw [List.length_append]; omega), charAt_last hsome]
  exact h.seps_last _ hsome

/-- Behind two separators at the beginning of the string. -/
theorem Ends.net_iff (hp : p.path = front ++ seps ++ name) (hne : seps ≠ []) :
    (front ++ seps).length - 1 = 1 ∧ p.path.charAt ((front ++ seps).length - 1 - 1) = separator ↔
      front = [] ∧ seps.length = 2 := by
  have hpos := List.length_pos_iff.mpr hne
  refine ⟨fun hscanned => ?_, fun hends => ?_⟩
  · obtain ⟨hone, hchar⟩ := hscanned
    rw [hone] at hchar
    rw [List.length_append] at hone
    cases front with
    | nil => exact ⟨rfl, by rw [List.length_nil] at hone; omega⟩
    | cons a front =>
      -- then there is one other character, and one separator
      rw [List.length_cons] at hone
      obtain rfl : front = [] := List.length_eq_zero_iff.mp (by omega)
      rw [hp] at hchar
      exact absurd hchar (h.stop a rfl)
  · obtain ⟨rfl, htwo⟩ := hends
    obtain rfl := AllSeparators.eq_double h.separators htwo
    exact ⟨rfl, by rw [hp]; rfl⟩

/-- The last element, if it is a name. -/
theorem filename_name (hp : p.path = front ++ seps ++ name) (hnul : (0 : UInt8) ∉ p.path)
    (hne : name ≠ []) :
    p.filename.path = if front = [] ∧ seps.length = 2 then seps ++ name else name := by
  obtain ⟨c, hc, hcsep⟩ := h.plain.getLast hne
  obtain ⟨hstart, -⟩ := h.scans hp
  have hempty : p.path ≠ [] := by simp [hp, hne]
  have hlast : p.path.getLast? = some c := by
    rw [hp, List.getLast?_append, hc]
    rfl
  have hchar : p.path.charAt (p.path.length - 1) ≠ separator := charAt_last hlast ▸ hcsep
  have hroot : p.path ≠ [separator] := by
    intro hroot
    rw [hroot] at hlast
    exact hcsep (Option.some.inj hlast).symm
  simp only [filename, if_neg hempty, if_neg hroot, if_neg hchar, hstart]
  by_cases hseps : seps = []
  · -- there is no separator in the path
    obtain rfl : front = [] := h.between hseps
    subst hseps
    have hpath : p.path = [] ++ name := hp
    have hzero : p.path.charAt 0 ≠ separator := by
      obtain ⟨a, name, rfl⟩ := List.exists_cons_of_ne_nil hne
      rw [hpath]
      exact (h.plain a (by simp)).2
    have hall := fromPointer_eq hnul hpath
    simpa [hzero] using hall
  · have hpos := List.length_pos_iff.mpr hseps
    have hbehind : (front ++ seps).length - 1 + 1 = (front ++ seps).length := by
      rw [List.length_append]
      omega
    have hsep := h.char_last hp hseps
    have hall := fromPointer_eq (u := []) hnul (List.nil_append _).symm
    simp only [hsep, true_and, h.net_iff hp hseps, ne_eq, not_true_eq_false, false_and, if_false,
      hbehind]
    by_cases hnet : front = [] ∧ seps.length = 2
    · rw [if_pos hnet, if_pos hnet]
      refine hall.trans ?_
      rw [hp, hnet.1, List.nil_append]
    · rw [if_neg hnet, if_neg hnet]
      exact fromPointer_eq hnul hp

omit h in
/-- The last element, if there is no name behind the last separators. -/
theorem filename_dot (h : Ends front seps []) (hp : p.path = front ++ seps) (hempty : p.path ≠ [])
    (hroot : p.path ≠ [separator]) : p.filename.path = [dot] := by
  have hne : front ++ seps ≠ [] := hp ▸ hempty
  have hsome := List.getLast?_eq_some_getLast hne
  have hlast : p.path.getLast? = some ((front ++ seps).getLast hne) := by rw [hp, hsome]
  have hchar : p.path.charAt (p.path.length - 1) = separator := by
    rw [charAt_last hlast]
    exact h.seps_last _ hsome
  simp only [filename, if_neg hempty, if_neg hroot, hchar, if_true]

end

/-! ## §2 parent_path and filename -/

/-- `filename` is the last element, and `parent_path` has the others. -/
def SplitsOff (p : Path) : Prop :=
  ∃ es, p.Yields es ∧ es.getLast? = some p.filename.path ∧ p.parentPath.Yields es.dropLast

/-- One character, separators behind it and at most a name. The paths `"/name"`
and `"//name"` are not meant. -/
def Short (t : Text) : Prop :=
  ∃ a seps name, t = a :: seps ++ name ∧ seps ≠ [] ∧ AllSeparators seps ∧ Plain name ∧
    (a = separator → name = [] ∨ 2 ≤ seps.length)

theorem splitsOff_iff_elements {parent : Text} (hnul : (0 : UInt8) ∉ p.path)
    (hparent : p.parentPath.path = parent) (hparentnul : (0 : UInt8) ∉ parent) :
    p.SplitsOff ↔ (elements p.path).getLast? = some p.filename.path ∧
      elements parent = (elements p.path).dropLast := by
  have hyields := yields_elements p hnul
  have hparents : p.parentPath.Yields (elements parent) := by
    rw [← hparent] at hparentnul ⊢
    exact yields_elements _ hparentnul
  refine ⟨fun h => ?_, fun h => ?_⟩
  · obtain ⟨es, hes, hlast, hfront⟩ := h
    obtain rfl := hes.unique hyields
    exact ⟨hlast, hparents.unique hfront⟩
  · exact ⟨_, hyields, h.1, h.2 ▸ hparents⟩

/-- A name behind separators at the beginning of the string. -/
theorem elements_seps_name (hseps : AllSeparators seps) (hname : Plain name) (hne : name ≠ []) :
    elements (seps ++ name) = firstElements seps name := by
  have hpath := elements_front hseps hname hne atSeparator_nil
  rwa [List.append_nil, following_nil, List.append_nil] at hpath

/-- Three or more separators at the beginning are the root, and stand for one
element more. -/
theorem elements_many (hseps : AllSeparators seps) (hname : Plain name) (hlen : 3 ≤ seps.length) :
    elements (seps ++ name) = [[separator], lastElement name] := by
  have hsepsne : seps ≠ [] := by
    intro hnil
    rw [hnil, List.length_nil] at hlen
    omega
  by_cases hne : name = []
  · subst hne
    obtain ⟨seps, rfl, htail⟩ := hseps.exists_tail hsepsne
    rw [List.length_cons] at hlen
    have htailne : seps ≠ [] := by
      intro hnil
      rw [hnil, List.length_nil] at hlen
      omega
    have hroot : elements (separator :: seps ++ ([] ++ [])) =
        [separator] :: following (seps ++ ([] ++ [])) :=
      elements_root htail hname (fun _ => rfl) (by omega)
    simp only [List.append_nil] at hroot ⊢
    rw [hroot, following_seps htail htailne]
    rfl
  · rw [elements_seps_name hseps hname hne, firstElements, if_neg hsepsne, if_neg (by omega),
      lastElement, if_neg hne]

/-- The elements of a path that ends so, without its last one, if the path
begins with its last separators. -/
theorem dropLast_elements (hseps : AllSeparators seps) (hname : Plain name)
    (hempty : seps ++ name ≠ []) :
    (elements (seps ++ name)).dropLast =
      if seps.length = 1 ∧ name ≠ [] ∨ 3 ≤ seps.length then [[separator]] else [] := by
  by_cases hmany : 3 ≤ seps.length
  · rw [elements_many hseps hname hmany, if_pos (.inr hmany)]
    rfl
  by_cases hne : name = []
  · subst hne
    rw [List.append_nil] at hempty ⊢
    have hnone : ¬ (seps.length = 1 ∧ ([] : Text) ≠ [] ∨ 3 ≤ seps.length) := by simpa using hmany
    have hpos := List.length_pos_iff.mpr hempty
    rw [if_neg hnone]
    obtain hone | htwo : seps.length = 1 ∨ seps.length = 2 := by omega
    · obtain rfl := hseps.eq_single hone
      decide
    · obtain rfl := hseps.eq_double htwo
      decide
  · rw [elements_seps_name hseps hname hne, firstElements]
    by_cases hnil : seps = []
    · simp [hnil]
    · have hpos := List.length_pos_iff.mpr hnil
      by_cases htwo : seps.length = 2
      · simp [hnil, htwo]
      · have hone : seps.length = 1 := by omega
        simp [hnil, hone, hne]

/-- A path that is short has no parent, but a first element. -/
theorem not_splitsOff_of_short (hnul : (0 : UInt8) ∉ p.path) (h : Short p.path) :
    ¬ p.SplitsOff := by
  obtain ⟨a, seps, name, hp, hne, hseps, hname, hroot⟩ := h
  have hpos := List.length_pos_iff.mpr hne
  by_cases ha : a = separator
  · -- separators at the beginning: the path `"//"`, or a root and something behind it
    subst ha
    have hall : AllSeparators (separator :: seps) := List.forall_mem_cons.mpr ⟨rfl, hseps⟩
    have hends : Ends [] (separator :: seps) name := ⟨hall, hname, by simp, by simp⟩
    have hparent : p.parentPath.path = [] := by
      rw [parentPath_eq hends hp, if_neg (by simp), if_neg]
      simp [hne]
    rw [splitsOff_iff_elements hnul hparent (by simp), hp]
    intro hsplits
    obtain ⟨hlast, hfront⟩ := hsplits
    have hdrop := dropLast_elements hall hname (by simp)
    rw [← hfront] at hdrop
    by_cases hmany : 2 ≤ seps.length
    · rw [if_pos (.inr (by rw [List.length_cons]; omega))] at hdrop
      cases hdrop
    · obtain hnil | hmany' := hroot rfl
      · subst hnil
        obtain rfl := hseps.eq_single (by omega)
        obtain ⟨path⟩ := p
        obtain rfl : path = [separator, separator] := hp
        exact absurd hlast (by decide)
      · exact hmany hmany'
  · have hends : Ends [a] seps name := by
      refine ⟨hseps, hname, fun c hc => ?_, fun hnil => absurd hnil hne⟩
      obtain rfl : a = c := Option.some.inj hc
      exact ha
    have hparent : p.parentPath.path = [] := by
      rw [parentPath_eq hends hp, if_neg (by simp), if_neg (by simp)]
    rw [splitsOff_iff_elements hnul hparent (by simp)]
    intro hsplits
    have ha0 : a ≠ 0 := fun h0 => hnul (by simp [hp, h0])
    have happend := elements_append hends (by simp) (by simpa using ha0.symm)
    have hfront := hsplits.2
    rw [hp, show a :: seps ++ name = [a] ++ seps ++ name from rfl, happend,
      List.dropLast_concat] at hfront
    have hfirst : elements [a] = [] := hfront.symm
    simp [elements] at hfirst

/-- At most a root, and at most a name. -/
theorem splitsOff_of_few (h : Ends [] seps name) (hp : p.path = seps ++ name)
    (hempty : p.path ≠ []) (hnul : (0 : UInt8) ∉ p.path) (hfew : seps.length ≤ 2)
    (htwo : seps.length = 2 → name ≠ []) : p.SplitsOff := by
  have hparent := parentPath_eq h hp
  have hdrop := dropLast_elements h.separators h.plain (hp ▸ hempty)
  have hsame : seps.length = 1 ∧ name ≠ [] ∨ 3 ≤ seps.length ↔ seps.length = 1 ∧ name ≠ [] :=
    or_iff_left (by omega)
  simp only [hsame] at hdrop
  rw [if_neg (by simp)] at hparent
  simp only [true_and] at hparent
  have hlast : (elements p.path).getLast? = some p.filename.path := by
    by_cases hne : name = []
    · -- a path of separators: the root directory
      subst hne
      rw [List.append_nil] at hp
      have hpos := List.length_pos_iff.mpr (hp ▸ hempty)
      have hone : seps.length = 1 := by
        by_contra hnot
        exact htwo (by omega) rfl
      obtain rfl := AllSeparators.eq_single h.separators hone
      obtain ⟨path⟩ := p
      obtain rfl : path = [separator] := hp
      decide
    · rw [filename_name h hp hnul hne, hp, elements_seps_name h.separators h.plain hne,
        firstElements]
      by_cases hnil : seps = []
      · simp [hnil]
      · by_cases hlen : seps.length = 2 <;> simp [hnil, hlen]
  by_cases hone : seps.length = 1 ∧ name ≠ []
  · rw [if_pos hone] at hparent hdrop
    rw [splitsOff_iff_elements hnul hparent (by decide)]
    refine ⟨hlast, ?_⟩
    rw [hp, hdrop]
    decide
  · rw [if_neg hone] at hparent hdrop
    rw [splitsOff_iff_elements hnul hparent (by decide)]
    refine ⟨hlast, ?_⟩
    rw [hp, hdrop]
    rfl

/-- **`parent_path` and `filename` split off the last element**, but for paths
that begin with one character and have no second name. -/
theorem splits_iff (p : Path) (hempty : p.path ≠ []) (hnul : (0 : UInt8) ∉ p.path) :
    p.SplitsOff ↔ ¬ Short p.path := by
  refine ⟨fun h hshort => not_splitsOff_of_short hnul hshort h, fun hshort => ?_⟩
  obtain ⟨front, seps, name, hp, hends⟩ := exists_ends hnul
  have hfrontnul : (0 : UInt8) ∉ front := fun h0 => hnul (by rw [hp]; simp [h0])
  by_cases hfront : front = []
  · subst hfront
    -- more separators, or two without a name, would be short
    have hnot : ∀ a others, seps = a :: others → others ≠ [] →
        ¬ (name = [] ∨ 2 ≤ others.length) := by
      intro a others hseps hne hroot
      refine hshort ⟨a, others, name, by rw [hp, hseps]; rfl, hne, ?_, hends.plain, fun _ => hroot⟩
      exact fun c hc => hends.separators c (by rw [hseps]; exact List.mem_cons_of_mem _ hc)
    have hfew : seps.length ≤ 2 := by
      by_contra hmany
      obtain ⟨a, others, rfl⟩ := List.exists_cons_of_length_pos (by omega : 0 < seps.length)
      rw [List.length_cons] at hmany
      exact hnot a others rfl (by intro hnil; simp [hnil] at hmany) (.inr (by omega))
    refine splitsOff_of_few hends hp hempty hnul hfew fun htwo hnil => ?_
    obtain rfl := AllSeparators.eq_double hends.separators htwo
    exact hnot separator [separator] rfl (by simp) (.inl hnil)
  · have hlong : 2 ≤ front.length := by
      by_contra hone
      have hpos := List.length_pos_iff.mpr hfront
      obtain ⟨a, rfl⟩ := List.length_eq_one_iff.mp (by omega : front.length = 1)
      refine hshort ⟨a, seps, name, hp, hends.ne_nil hfront, hends.separators, hends.plain, ?_⟩
      exact fun ha => absurd ha (hends.stop a rfl)
    have hparent := parentPath_eq hends hp
    rw [if_pos hlong] at hparent
    rw [splitsOff_iff_elements hnul hparent hfrontnul, hp, elements_append hends hfront hfrontnul,
      List.dropLast_concat, List.getLast?_concat]
    refine ⟨congrArg some ?_, rfl⟩
    by_cases hne : name = []
    · subst hne
      rw [List.append_nil] at hp
      have hroot : p.path ≠ [separator] := by
        intro hroot
        have hlength := congrArg List.length (hroot.symm.trans hp)
        rw [List.length_append, List.length_singleton] at hlength
        omega
      rw [filename_dot hends hp hempty hroot]
      rfl
    · rw [filename_name hends hp hnul hne, if_neg (fun h => hfront h.1), lastElement, if_neg hne]

/-- `"/a"`. -/
theorem splits_iff_root : SplitsOff ⟨[47, 97]⟩ ↔ ¬ Short [47, 97] :=
  splits_iff ⟨[47, 97]⟩ (by decide) (by decide)

/-- `"a/b"` has no parent. -/
theorem not_always_splitsOff :
    ¬ ∀ p : Path, p.path ≠ [] → (0 : UInt8) ∉ p.path → p.SplitsOff := by
  intro h
  have hsplits := h ⟨[97, 47, 98]⟩ (by decide) (by decide)
  have hparent : parentPath ⟨[97, 47, 98]⟩ = ⟨[]⟩ := by decide
  rw [splitsOff_iff_elements (by decide) (congrArg Path.path hparent) (by decide)] at hsplits
  exact absurd hsplits.2 (by decide)

end Acatl.Path
