/-
Acatl.PathAppending — the elements of a path, put together again.

`append` inserts a separator where one is missing. What has been put together so
far is the root directory or ends with a name, so that every further element
stays one of its own (`elements_step`).
-/
import Acatl.PathRoots

namespace Acatl.Path

/-! ## §1 One more element -/

/-- What can be put in front of an element: the root directory, or what does not
end with a separator. -/
structure Extensible (p : Path) : Prop where
  nonempty : p.path ≠ []
  nul : (0 : UInt8) ∉ p.path
  ends : p.path = [separator] ∨ ∀ c ∈ p.path.getLast?, c ≠ separator

variable {p : Path} {e : Text}

/-- Behind the root directory an element follows at once, and elsewhere behind a
separator. -/
theorem Extensible.append_path (h : Extensible p) (he : Plain e) (hne : e ≠ []) :
    (p.append ⟨e⟩).path = p.path ++ (if p.path = [separator] then [] else [separator]) ++ e := by
  by_cases hroot : p.path = [separator]
  · rw [append_path_behind _ (.inr (by rw [hroot]; rfl)), if_pos hroot, List.append_nil]
  · have hlast : p.path.getLast? ≠ some separator := by
      intro hlast
      obtain hsep | hstop := h.ends
      · exact hroot hsep
      · exact hstop _ hlast rfl
    have hhead : e.head? ≠ some separator :=
      fun hhead => he.notMem (List.mem_of_mem_head? hhead)
    rw [append, if_neg (by simp [h.nonempty, hlast, hhead, hne]), if_neg hroot]

/-- **The elements of a path with one more element behind it.** -/
theorem elements_step (h : Extensible p) (he : Plain e) (hne : e ≠ []) :
    elements (p.append ⟨e⟩).path = elements p.path ++ [e] := by
  rw [h.append_path he hne]
  by_cases hroot : p.path = [separator]
  · have hone : AllSeparators [separator] := by simp [AllSeparators]
    rw [hroot, if_pos rfl, List.append_nil, elements_seps_name hone he hne]
    rfl
  · have hends : Ends p.path [separator] e :=
      ⟨by simp [AllSeparators], he, h.ends.resolve_left hroot, by simp⟩
    rw [if_neg hroot, elements_append hends h.nonempty h.nul, lastElement, if_neg hne]

/-- What ends with a name. -/
theorem extensible_name {front name : Text} (hfront : (0 : UInt8) ∉ front) (hname : Plain name)
    (hne : name ≠ []) : Extensible ⟨front ++ name⟩ where
  nonempty := by simp [hne]
  nul := by simp [hfront, hname.nul_notMem]
  ends := by
    obtain ⟨c, hlast, hc⟩ := hname.getLast hne
    refine .inr fun d hd => ?_
    rw [List.getLast?_append, hlast] at hd
    obtain rfl : c = d := Option.some.inj hd
    exact hc

theorem Extensible.append (h : Extensible p) (he : Plain e) (hne : e ≠ []) :
    Extensible (p.append ⟨e⟩) := by
  have hpath : p.append ⟨e⟩ = ⟨p.path ++ (if p.path = [separator] then [] else [separator]) ++ e⟩ :=
    congrArg Path.mk (h.append_path he hne)
  have hnul : (0 : UInt8) ∉ p.path ++ if p.path = [separator] then [] else [separator] := by
    have hfront := h.nul
    split <;> simp [hfront, separator_ne_zero.symm]
  rw [hpath]
  exact extensible_name hnul he hne

/-! ## §2 All elements -/

/-- `dir /= entry` for some entries. -/
def appendAll (dir : Path) (es : List Text) : Path := es.foldl (fun dir e => dir.append ⟨e⟩) dir

@[simp] theorem appendAll_nil (dir : Path) : dir.appendAll [] = dir := rfl

theorem appendAll_concat (dir : Path) (es : List Text) (e : Text) :
    dir.appendAll (es ++ [e]) = (dir.appendAll es).append ⟨e⟩ := by
  simp [appendAll]

theorem Extensible.appendAll (h : Extensible p) {es : List Text} (hes : ∀ e ∈ es, Ordinary e) :
    Extensible (p.appendAll es) ∧ elements (p.appendAll es).path = elements p.path ++ es := by
  induction es using List.reverseRecOn with
  | nil => exact ⟨h, by simp⟩
  | append_singleton es e ih =>
    obtain ⟨hext, helements⟩ := ih fun other hother => hes other (by simp [hother])
    obtain ⟨he, hne⟩ := hes e (by simp)
    rw [appendAll_concat]
    refine ⟨hext.append he hne, ?_⟩
    rw [elements_step hext he hne, helements, List.append_assoc]

theorem ordinary_following {rest : Text} (hnul : (0 : UInt8) ∉ rest) :
    ∀ e ∈ following rest, Ordinary e := by
  intro e he
  rcases List.mem_append.mp he with he | he
  · obtain ⟨hne, hsep⟩ := Lib.mem_runs he
    have hsub : ∀ c ∈ e, c ∈ rest := fun c hc => Lib.mem_of_mem_piece (List.mem_filter.mp he).1 hc
    exact ⟨fun c hc => ⟨fun h0 => hnul (h0 ▸ hsub c hc), fun hc' => hsep (hc' ▸ hc)⟩, hne⟩
  · split at he
    · obtain rfl := List.mem_singleton.mp he
      exact ⟨plain_dot, by simp⟩
    · cases he

/-- The first element of a path, and what is behind it. -/
structure Begins (t first rest : Text) : Prop where
  whole : t = first ++ rest
  elements_eq : elements t = first :: following rest
  /-- It is a path of its own, -/
  single : elements first = [first]
  shape : ∃ seps name, first = seps ++ name ∧ AllSeparators seps ∧ Plain name
  nonempty : first ≠ []
  runs_eq : Lib.runs separator t = Lib.runs separator first ++ Lib.runs separator rest
  /-- and if there are others, it can stand in front of them. -/
  extensible : following rest = [] ∨ Extensible ⟨first⟩

theorem runs_at_separator (first : Text) {rest : Text} (hrest : AtSeparator rest) :
    Lib.runs separator (first ++ rest) = Lib.runs separator first ++ Lib.runs separator rest := by
  cases rest with
  | nil => simp
  | cons c rest => rw [hrest c rfl, Lib.runs_append_sep, Lib.runs_sep_cons]

/-- A path that begins with a name. -/
theorem begins_name {name rest : Text} (hname : Plain name) (hne : name ≠ [])
    (hrest : AtSeparator rest) : Begins (name ++ rest) name rest where
  whole := rfl
  elements_eq := elements_name hname hne hrest
  single := by simpa using elements_name hname hne atSeparator_nil
  shape := ⟨[], name, rfl, by simp [AllSeparators], hname⟩
  nonempty := hne
  runs_eq := runs_at_separator name hrest
  extensible := .inr (extensible_name List.not_mem_nil hname hne)

/-- A path that begins with exactly two separators. -/
theorem begins_net {name rest : Text} (hname : Plain name) (hrest : AtSeparator rest)
    (hend : name = [] → rest = []) :
    Begins ([separator, separator] ++ name ++ rest) ([separator, separator] ++ name) rest where
  whole := rfl
  elements_eq := by
    rw [List.append_assoc]
    exact elements_net hname hrest hend
  single := by simpa using elements_net hname atSeparator_nil fun _ => rfl
  shape := ⟨_, name, rfl, by simp [AllSeparators], hname⟩
  nonempty := by simp
  runs_eq := runs_at_separator _ hrest
  extensible := by
    by_cases hne : name = []
    · exact .inl (by rw [hend hne]; rfl)
    · exact .inr (extensible_name (by decide) hname hne)

/-- A path that begins with one separator, or with more than two. -/
theorem begins_root {root name rest : Text} (hroot : AllSeparators root) (hname : Plain name)
    (hend : name = [] → rest = []) (hlen : root.length ≠ 1) :
    Begins (separator :: root ++ (name ++ rest)) [separator] (root ++ (name ++ rest)) where
  whole := rfl
  elements_eq := elements_root hroot hname hend hlen
  single := by decide
  shape := ⟨[separator], [], rfl, by simp [AllSeparators], by simp [Plain]⟩
  nonempty := by simp
  runs_eq := Lib.runs_append_sep separator [] _
  extensible := .inr ⟨by simp, by decide, .inl rfl⟩

theorem exists_first {t : Text} (hne : t ≠ []) (hnul : (0 : UInt8) ∉ t) :
    ∃ first rest, Begins t first rest := by
  obtain ⟨root, name, rest, rfl, hroot, hname, hrest, hend⟩ := exists_split hnul
  by_cases hnil : root = []
  · subst hnil
    have hnamene : name ≠ [] := fun h => hne (by simp [h, hend h])
    exact ⟨name, rest, begins_name hname hnamene hrest⟩
  by_cases htwo : root.length = 2
  · obtain rfl := hroot.eq_double htwo
    rw [← List.append_assoc]
    exact ⟨_, rest, begins_net hname hrest hend⟩
  · obtain ⟨root, rfl, htail⟩ := hroot.exists_tail hnil
    have hlen : root.length ≠ 1 := fun h => htwo (by simp [h])
    exact ⟨[separator], _, begins_root htail hname hend hlen⟩

/-- The first element of a path without a NUL has none, -/
theorem Begins.nul_notMem {t first rest : Text} (h : Begins t first rest)
    (hnul : (0 : UInt8) ∉ t) : (0 : UInt8) ∉ first := by
  rw [h.whole, List.mem_append, not_or] at hnul
  exact hnul.1

/-- and the others are names or a dot. -/
theorem Begins.ordinary {t first rest : Text} (h : Begins t first rest)
    (hnul : (0 : UInt8) ∉ t) : ∀ e ∈ following rest, Ordinary e := by
  rw [h.whole, List.mem_append, not_or] at hnul
  exact ordinary_following hnul.2

theorem appendAll_first (first : Text) (es : List Text) :
    appendAll ⟨[]⟩ (first :: es) = appendAll ⟨first⟩ es := by
  rw [appendAll, List.foldl_cons, append, if_pos (.inl rfl), List.nil_append]
  rfl

/-- **The first elements of a path, put together, have just these elements.** -/
theorem yields_appendAll (p : Path) (hnul : (0 : UInt8) ∉ p.path) {es : List Text}
    (hes : p.Yields es) (k : Nat) : (appendAll ⟨[]⟩ (es.take k)).Yields (es.take k) := by
  obtain rfl := hes.unique (yields_elements p hnul)
  have hempty : Yields ⟨[]⟩ [] := yields_elements ⟨[]⟩ (by simp)
  by_cases hne : p.path = []
  · rw [hne]
    simpa [elements] using hempty
  obtain ⟨first, rest, h⟩ := exists_first hne hnul
  rw [h.elements_eq]
  cases k with
  | zero => exact hempty
  | succ k =>
    rw [List.take_succ_cons, appendAll_first]
    obtain hnil | hext := h.extensible
    · rw [hnil, List.take_nil, appendAll_nil]
      simpa [h.single] using yields_elements ⟨first⟩ (h.nul_notMem hnul)
    · obtain ⟨hextAll, hall⟩ :=
        hext.appendAll fun e he => h.ordinary hnul e (List.mem_of_mem_take he)
      have hyields := yields_elements _ hextAll.nul
      rwa [hall, h.single] at hyields

/-- `"/a/b"` and its first two elements. -/
theorem yields_appendAll_two : appendAll ⟨[]⟩ [[47], [97]] = ⟨[47, 97]⟩ ∧
    (appendAll ⟨[]⟩ [[47], [97]]).Yields [[47], [97]] :=
  have hyields : Yields ⟨[47, 97, 47, 98]⟩ [[47], [97], [98]] :=
    yields_elements ⟨[47, 97, 47, 98]⟩ (by decide)
  ⟨by decide, yields_appendAll ⟨[47, 97, 47, 98]⟩ (by decide) hyields 2⟩

end Acatl.Path
