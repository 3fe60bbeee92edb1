/-
Acatl.PathAbsolute — `absolute`, and when its result is really absolute.

A path with a root directory has a name of a net in front of it (`Net`) or begins
with one separator or with three and more (`Rooted`). What `absolute` makes is one
of the two (`absolute_step`), and it is left alone by a second call unless it is
rooted and the base has a root name, which then comes in front of it. The root name
`"//"` is the one that is lost: a separator behind it makes three.
-/
import Acatl.PathRoots

namespace Acatl.Path

/-! ## §1 absolute -/

/-- `has_root_name`. -/
def HasRootName (p : Path) : Prop := p.rootName.path ≠ []

/-- `has_root_directory`. -/
def HasRootDirectory (p : Path) : Prop := p.rootDirectory.path ≠ []

/-- `is_absolute`. -/
def IsAbsolute (p : Path) : Prop := p.HasRootDirectory

instance (p : Path) : Decidable p.HasRootName := inferInstanceAs (Decidable (_ ≠ _))
instance (p : Path) : Decidable p.HasRootDirectory := inferInstanceAs (Decidable (_ ≠ _))
instance (p : Path) : Decidable p.IsAbsolute := inferInstanceAs (Decidable (_ ≠ _))

/-- `absolute(p, base)`, with the current directory and the depth of the calls that is
left; `absolute(base)` is made absolute with the current directory. -/
def absolute (current : Path) : Nat → Path → Path → Option Path
  | 0, _, _ => none
  | fuel + 1, p, base =>
    if p.HasRootDirectory then
      if p.HasRootName then some p
      else if base.HasRootName then some (base.rootName.append p)
      else some p
    else if p.HasRootName then
      match absolute current fuel base current with
      | none => none
      | some b =>
        some (((p.rootName.append b.rootDirectory).append b.relativePath).append p.relativePath)
    else
      match absolute current fuel base current with
      | none => none
      | some b => some (b.append p)

/-- The call returns, with this path. -/
def Evaluates (current p base result : Path) : Prop :=
  ∃ n, ∀ fuel, n ≤ fuel → absolute current fuel p base = some result

/-! ## §2 The roots of a path -/

/-- A name of a net and a root directory behind it. -/
def Net (t : Text) : Prop :=
  ∃ name rest, t = [separator, separator] ++ (name ++ separator :: rest) ∧ Plain name ∧ name ≠ []

/-- A root directory, and no name in front of it. -/
def Rooted (t : Text) : Prop :=
  ∃ root left, t = root ++ left ∧ AllSeparators root ∧ root ≠ [] ∧ root.length ≠ 2 ∧
    left.head? ≠ some separator

section

variable {p q : Path}

theorem Net.hasRootName (h : Net p.path) : p.HasRootName := by
  obtain ⟨name, rest, hp, hname, hne⟩ := h
  rw [HasRootName, rootName_eq hp (by simp [AllSeparators]) hname
    (fun c hc => (Option.some.inj hc).symm) (fun hnil => absurd hnil hne)]
  simp

theorem Net.hasRootDirectory (h : Net p.path) : p.HasRootDirectory := by
  obtain ⟨name, rest, hp, hname, hne⟩ := h
  rw [HasRootDirectory, rootDirectory_eq hp (by simp [AllSeparators]) hname
    (fun c hc => (Option.some.inj hc).symm) (fun hnil => absurd hnil hne)]
  simp

theorem Rooted.rootName_eq (h : Rooted p.path) : p.rootName.path = [] := by
  obtain ⟨root, left, hp, hroot, hne, hlen, hleft⟩ := h
  have hskip := skipSeparators_zero hp hroot hleft
  have hempty : p.path ≠ [] := by simp [hp, hne]
  simp only [rootName, if_neg hempty, hskip, if_neg hlen]

theorem Rooted.not_hasRootName (h : Rooted p.path) : ¬ p.HasRootName := not_not_intro h.rootName_eq

theorem Rooted.head (h : Rooted p.path) : p.path.head? = some separator := by
  obtain ⟨root, left, hp, hroot, hne, -, -⟩ := h
  obtain ⟨others, rfl, -⟩ := hroot.exists_tail hne
  rw [hp]
  rfl

theorem Rooted.hasRootDirectory (h : Rooted p.path) : p.HasRootDirectory := by
  rw [HasRootDirectory, rootDirectory, if_pos h.head]
  simp [h.rootName_eq]

theorem Net.not_rooted {t : Text} (h : Net t) : ¬ Rooted t := fun hrooted =>
  Rooted.not_hasRootName (p := ⟨t⟩) hrooted (Net.hasRootName (p := ⟨t⟩) h)

/-- Three separators are no root name. -/
theorem rooted_of_three (t : Text) : Rooted ([separator, separator, separator] ++ t) := by
  refine ⟨[separator, separator, separator] ++ t.takeWhile (· = separator),
    t.dropWhile (· = separator), ?_, ?_, by simp, by simp, ?_⟩
  · rw [List.append_assoc, List.takeWhile_append_dropWhile]
  · intro c hc
    rcases List.mem_append.mp hc with hc | hc
    · simpa using hc
    · simpa using List.mem_takeWhile_imp hc
  · intro hhead
    have hno := List.head?_dropWhile_not (fun c => decide (c = separator)) t
    rw [hhead] at hno
    simp at hno

/-- What a path without a NUL begins with. -/
inductive Shape (p : Path) : Prop
  | relative (hname : ¬ p.HasRootName) (hdirectory : ¬ p.HasRootDirectory)
      (hhead : p.path.head? ≠ some separator)
  | rooted (h : Rooted p.path)
  | net (h : Net p.path)
  | name (name : Text) (h : p.path = [separator, separator] ++ name) (hname : Plain name)

theorem shape (p : Path) (hnul : (0 : UInt8) ∉ p.path) : Shape p := by
  obtain ⟨root, name, rest, hp, hroot, hname, hrest, hend⟩ := exists_split hnul
  by_cases hnil : root = []
  · have hhead : p.path.head? ≠ some separator := by
      rw [hp, hnil]
      exact hname.head hend
    obtain ⟨hrootName, hrootDirectory⟩ := (relative_iff p hnul).mpr hhead
    exact .relative (not_not_intro hrootName) (not_not_intro hrootDirectory) hhead
  by_cases htwo : root.length = 2
  · obtain rfl := hroot.eq_double htwo
    cases rest with
    | nil => exact .name name (by rw [hp, List.append_nil]) hname
    | cons c rest =>
      obtain rfl : c = separator := hrest c rfl
      exact .net ⟨name, rest, hp, hname, fun h => absurd (hend h) (by simp)⟩
  · exact .rooted ⟨root, name ++ rest, hp, hroot, hnil, htwo, hname.head hend⟩

/-- A root name alone is the whole path. -/
theorem name_eq {name : Text} (hp : p.path = [separator, separator] ++ name)
    (hname : Plain name) : p.rootName.path = p.path ∧ p.rootDirectory.path = [] ∧
      p.relativePath.path = [] := by
  have hp' : p.path = [separator, separator] ++ (name ++ []) := by rw [hp, List.append_nil]
  have hroot : AllSeparators [separator, separator] := by simp [AllSeparators]
  have hnul : (0 : UInt8) ∉ p.path := by
    rw [hp, List.mem_append]
    rintro (h0 | h0)
    · exact absurd h0 (by decide)
    · exact hname.nul_notMem h0
  refine ⟨?_, ?_, ?_⟩
  · rw [Path.rootName_eq hp' hroot hname atSeparator_nil fun _ => rfl, hp]
    exact if_pos rfl
  · rw [rootDirectory_eq hp' hroot hname atSeparator_nil fun _ => rfl]
    exact if_pos (.inr ⟨rfl, rfl⟩)
  · rw [relativePath_eq hp' hroot hname atSeparator_nil (fun _ => rfl) hnul]
    exact if_pos rfl

/-- The two separators of a root name, and its name. -/
theorem exists_rootName (hnul : (0 : UInt8) ∉ p.path) (h : p.HasRootName) :
    ∃ name, p.rootName.path = [separator, separator] ++ name ∧ Plain name ∧
      (name = [] ↔ p.path = [separator, separator]) := by
  cases shape p hnul with
  | relative hname => exact absurd h hname
  | rooted hrooted => exact absurd h hrooted.not_hasRootName
  | net hnet =>
    obtain ⟨name, rest, hp, hname, hne⟩ := hnet
    refine ⟨name, ?_, hname, fun hnil => absurd hnil hne, fun hpath => ?_⟩
    · rw [Path.rootName_eq hp (by simp [AllSeparators]) hname
        (fun c hc => (Option.some.inj hc).symm) (fun hnil => absurd hnil hne)]
      rfl
    · rw [hp] at hpath
      simp at hpath
  | name name hp hname =>
    refine ⟨name, by rw [(name_eq hp hname).1, hp], hname, ?_⟩
    rw [hp]
    simp

/-! ## §3 Appending to a root -/

theorem rootDirectory_path (h : p.HasRootDirectory) : p.rootDirectory.path = [separator] := by
  rw [HasRootDirectory, rootDirectory] at h
  rw [rootDirectory]
  by_cases hhead : p.path.head? = some separator
  · simp only [if_pos hhead] at h ⊢
    by_cases hroot : p.rootName.path = [] ∨ p.rootName.path.length < p.path.length
    · rw [if_pos hroot]
    · rw [if_neg hroot] at h
      exact absurd rfl h
  · rw [if_neg hhead] at h
    exact absurd rfl h

theorem exists_append (p q : Path) : ∃ behind, (p.append q).path = p.path ++ behind := by
  rw [append]
  split
  · exact ⟨_, rfl⟩
  · exact ⟨[separator] ++ q.path, by simp⟩

/-- A root name with a root directory behind it; that of `"//"` makes three separators. -/
theorem name_separator {name : Text} (hname : Plain name) (behind : Text) :
    (Net ([separator, separator] ++ name ++ separator :: behind) ∨
      Rooted ([separator, separator] ++ name ++ separator :: behind)) ∧
      (Net ([separator, separator] ++ name ++ separator :: behind) ↔ name ≠ []) := by
  by_cases hnil : name = []
  · have hrooted : Rooted ([separator, separator] ++ name ++ separator :: behind) := by
      rw [hnil]
      exact rooted_of_three behind
    exact ⟨.inr hrooted, fun hnet => absurd hrooted hnet.not_rooted, fun hne => absurd hnil hne⟩
  · have hnet : Net ([separator, separator] ++ name ++ separator :: behind) :=
      ⟨name, behind, by simp, hname, hnil⟩
    exact ⟨.inl hnet, fun _ => hnil, fun _ => hnet⟩

theorem Net.append (h : Net p.path) (q : Path) : Net (p.append q).path := by
  obtain ⟨name, rest, hp, hname, hne⟩ := h
  obtain ⟨behind, hbehind⟩ := exists_append p q
  exact ⟨name, rest ++ behind, by simp [hbehind, hp], hname, hne⟩

theorem Rooted.append (h : Rooted p.path) (hq : q.path.head? ≠ some separator) :
    Rooted (p.append q).path := by
  obtain ⟨root, left, hp, hroot, hne, hlen, hleft⟩ := h
  by_cases hnil : left = []
  · -- the root ends with a separator, so none is inserted
    rw [hnil, List.append_nil] at hp
    have hlast : p.path.getLast? = some separator := by
      rw [hp, List.getLast?_eq_some_getLast hne, hroot _ (List.getLast_mem hne)]
    exact ⟨root, q.path, by rw [append_path_behind q (.inr hlast), hp], hroot, hne, hlen, hq⟩
  · obtain ⟨behind, hbehind⟩ := exists_append p q
    refine ⟨root, left ++ behind, by rw [hbehind, hp, List.append_assoc], hroot, hne, hlen, ?_⟩
    rwa [List.head?_append_of_ne_nil _ hnil]

/-- A root name in front of a path with a root directory. -/
theorem rootName_append {name : Text} (hp : p.path = [separator, separator] ++ name)
    (hname : Plain name) (hq : q.path.head? = some separator) :
    (Net (p.append q).path ∨ Rooted (p.append q).path) ∧
      (Net (p.append q).path ↔ name ≠ []) := by
  obtain ⟨behind, hbehind⟩ : ∃ behind, q.path = separator :: behind := List.head?_eq_some_iff.mp hq
  rw [append_path_of q (.inr hq), hp, hbehind]
  exact name_separator hname behind

end

/-! ## §4 What absolute makes -/

section

variable {current p base b : Path} {fuel : Nat}

/-- The result of a call, with what the call for the base has made. -/
def made (p base b : Path) : Path :=
  if p.HasRootDirectory then
    if p.HasRootName then p
    else if base.HasRootName then base.rootName.append p
    else p
  else if p.HasRootName then
    ((p.rootName.append b.rootDirectory).append b.relativePath).append p.relativePath
  else b.append p

theorem absolute_succ (hcall : absolute current fuel base current = some b) :
    absolute current (fuel + 1) p base = some (made p base b) := by
  rw [absolute, made, hcall]
  split
  · split
    · rfl
    · split <;> rfl
  · split <;> rfl

/-- The result has a root name in front of its root directory. -/
def Named (p base b : Path) : Prop :=
  if p.HasRootDirectory then
    p.HasRootName ∨ base.HasRootName ∧ base.path ≠ [separator, separator]
  else if p.HasRootName then p.path ≠ [separator, separator]
  else Net b.path

/-- **One call**, for each shape of the path. -/
theorem made_shape (hp : (0 : UInt8) ∉ p.path) (hbase : (0 : UInt8) ∉ base.path)
    (hb : Net b.path ∨ Rooted b.path) :
    (Net (made p base b).path ∨ Rooted (made p base b).path) ∧
      (Net (made p base b).path ↔ Named p base b) := by
  cases shape p hp with
  | relative hname hdirectory hhead =>
    rw [made, Named, if_neg hdirectory, if_neg hname, if_neg hdirectory, if_neg hname]
    rcases hb with hnet | hrooted
    · exact ⟨.inl (hnet.append p), fun _ => hnet, fun _ => hnet.append p⟩
    · have hafter := hrooted.append hhead
      exact ⟨.inr hafter, fun h => absurd hafter h.not_rooted, fun h => absurd hrooted h.not_rooted⟩
  | net hnet =>
    rw [made, Named, if_pos hnet.hasRootDirectory, if_pos hnet.hasRootName,
      if_pos hnet.hasRootDirectory]
    exact ⟨.inl hnet, fun _ => .inl hnet.hasRootName, fun _ => hnet⟩
  | rooted hrooted =>
    rw [made, Named, if_pos hrooted.hasRootDirectory, if_neg hrooted.not_hasRootName,
      if_pos hrooted.hasRootDirectory]
    by_cases hbaseName : base.HasRootName
    · obtain ⟨name, hrootName, hname, hnil⟩ := exists_rootName hbase hbaseName
      obtain ⟨hkind, hnet⟩ := rootName_append hrootName hname hrooted.head
      rw [if_pos hbaseName]
      refine ⟨hkind, hnet.trans ?_⟩
      simp [hrooted.not_hasRootName, hbaseName, hnil]
    · have hnet : ¬ Net p.path := fun hnet => hnet.not_rooted hrooted
      rw [if_neg hbaseName]
      refine ⟨.inr hrooted, ?_⟩
      simp [hrooted.not_hasRootName, hbaseName, hnet]
  | name name hpath hname =>
    obtain ⟨hrootName, hrootDirectory, hrelative⟩ := name_eq hpath hname
    have hdirectory : ¬ p.HasRootDirectory := not_not_intro hrootDirectory
    have hhasName : p.HasRootName := by
      rw [HasRootName, hrootName, hpath]
      simp
    have hbdirectory : b.rootDirectory.path = [separator] :=
      rootDirectory_path (hb.elim Net.hasRootDirectory Rooted.hasRootDirectory)
    have hfirst : (p.rootName.append b.rootDirectory).path =
        [separator, separator] ++ name ++ [separator] := by
      rw [append_path_of _ (.inr (by rw [hbdirectory]; rfl)), hrootName, hpath, hbdirectory]
    have hlast : (p.rootName.append b.rootDirectory).path.getLast? = some separator := by
      rw [hfirst, List.getLast?_concat]
    have hresult : (((p.rootName.append b.rootDirectory).append b.relativePath).append
        p.relativePath).path =
          [separator, separator] ++ name ++ separator :: b.relativePath.path := by
      rw [append_path_of _ (.inl hrelative), hrelative, append_path_behind _ (.inr hlast), hfirst]
      simp
    obtain ⟨hkind, hnet⟩ := name_separator hname b.relativePath.path
    rw [made, Named, if_neg hdirectory, if_pos hhasName, if_neg hdirectory, if_pos hhasName,
      hresult]
    refine ⟨hkind, hnet.trans ?_⟩
    rw [hpath]
    simp

/-- A path with a root directory is returned when it is its own base. -/
theorem absolute_self (h : current.IsAbsolute) :
    absolute current (fuel + 1) current current = some current := by
  have hdirectory : current.HasRootDirectory := h
  rw [absolute, if_pos hdirectory]
  by_cases hname : current.HasRootName
  · rw [if_pos hname]
  · rw [if_neg hname, if_neg hname]

theorem IsAbsolute.shape (hp : (0 : UInt8) ∉ p.path) (h : p.IsAbsolute) :
    Net p.path ∨ Rooted p.path := by
  cases Path.shape p hp with
  | relative _ hno => exact absurd h hno
  | net hnet => exact .inl hnet
  | rooted hrooted => exact .inr hrooted
  | name name hpath hname => exact absurd (name_eq hpath hname).2.1 h

/-- What comes after the first call. -/
theorem made_self_iff (hkind : Net p.path ∨ Rooted p.path) :
    made p base b = p ↔ Net p.path ∨ ¬ base.HasRootName := by
  rcases hkind with hnet | hrooted
  · rw [made, if_pos hnet.hasRootDirectory, if_pos hnet.hasRootName]
    exact ⟨fun _ => .inl hnet, fun _ => rfl⟩
  · rw [made, if_pos hrooted.hasRootDirectory, if_neg hrooted.not_hasRootName]
    have hnet : ¬ Net p.path := fun hnet => hnet.not_rooted hrooted
    by_cases hbase : base.HasRootName
    · rw [if_pos hbase]
      refine ⟨fun heq => ?_, fun h => absurd hbase (h.resolve_left hnet)⟩
      -- the root name comes in front of the path
      have hpath := congrArg Path.path heq
      rw [append_path_of p (.inr hrooted.head)] at hpath
      exact absurd (List.append_left_eq_self.mp hpath) hbase
    · rw [if_neg hbase]
      exact ⟨fun _ => .inr hbase, fun _ => rfl⟩

/-- `"//"` is a root name without a root directory. -/
theorem double_separator (h : p.path = [separator, separator]) :
    p.HasRootName ∧ ¬ p.HasRootDirectory := by
  have hplain : Plain [] := by simp [Plain]
  obtain ⟨hrootName, hrootDirectory, -⟩ := @name_eq p [] h hplain
  refine ⟨?_, not_not_intro hrootDirectory⟩
  rw [HasRootName, hrootName, h]
  simp

end

/-! ## §5 Absolute -/

theorem Evaluates.unique {current p base r r' : Path} (h : Evaluates current p base r)
    (h' : Evaluates current p base r') : r = r' := by
  obtain ⟨n, hn⟩ := h
  obtain ⟨m, hm⟩ := h'
  have heq := (hn (max n m) (Nat.le_max_left n m)).symm.trans (hm (max n m) (Nat.le_max_right n m))
  exact Option.some.inj heq

/-- The call returns, what it returns is absolute, and a second call with the same base
returns that again. -/
def ReallyAbsolute (current p base : Path) : Prop :=
  ∃ r, Evaluates current p base r ∧ r.IsAbsolute ∧ Evaluates current r base r

section

variable {current p base : Path}

/-- Three calls, one in the other, are as deep as it gets. -/
theorem evaluates_made (h : current.IsAbsolute) (p base : Path) :
    Evaluates current p base (made p base (made base current current)) := by
  refine ⟨3, fun fuel hfuel => ?_⟩
  obtain ⟨k, rfl⟩ := Nat.exists_eq_add_of_le' hfuel
  exact absolute_succ (absolute_succ (absolute_self h))

/-- Where the root name of the base, if it has one, is in front of the result. -/
theorem named_or_iff {b : Path} (hb : Net b.path ↔ Named base current current) :
    Named p base b ∨ ¬ base.HasRootName ↔
      ¬ (base.path = [separator, separator] ∧ ¬ p.HasRootName) ∧
        ¬ (p.path = [separator, separator] ∧ base.HasRootName) := by
  have hpdouble := double_separator (p := p)
  have hbasedouble := double_separator (p := base)
  rw [Named]
  by_cases hbase : base.HasRootName
  · by_cases hdirectory : p.HasRootDirectory
    · have hne : p.path ≠ [separator, separator] := fun h => (hpdouble h).2 hdirectory
      simp [hdirectory, hbase, hne, or_iff_not_imp_right]
    by_cases hname : p.HasRootName
    · simp [hdirectory, hname, hbase]
    · have hne : p.path ≠ [separator, separator] := fun h => hname (hpdouble h).1
      simp only [hdirectory, if_false, hname, hb, hbase, hne]
      rw [Named]
      by_cases hbaseDirectory : base.HasRootDirectory
      · have hbasene : base.path ≠ [separator, separator] :=
          fun h => (hbasedouble h).2 hbaseDirectory
        simp [hbaseDirectory, hbase, hbasene]
      · simp [hbaseDirectory, hbase]
  · have hbasene : base.path ≠ [separator, separator] := fun h => hbase (hbasedouble h).1
    simp [hbase, hbasene]

/-- **When the result is really absolute.** Wherever it needs a root name, there is one
other than `"//"`. -/
theorem reallyAbsolute_iff (hp : (0 : UInt8) ∉ p.path) (hbase : (0 : UInt8) ∉ base.path)
    (hcurrent : (0 : UInt8) ∉ current.path) (h : current.IsAbsolute) :
    ReallyAbsolute current p base ↔
      ¬ (base.path = [separator, separator] ∧ ¬ p.HasRootName) ∧
        ¬ (p.path = [separator, separator] ∧ base.HasRootName) := by
  obtain ⟨hbaseKind, hbaseNet⟩ := made_shape hbase hcurrent (h.shape hcurrent)
  obtain ⟨hkind, hnet⟩ := made_shape hp hbase hbaseKind
  have hreally : ReallyAbsolute current p base ↔
      Named p base (made base current current) ∨ ¬ base.HasRootName := by
    rw [← hnet, ← made_self_iff (b := made base current current) hkind]
    refine ⟨fun ⟨r, hr, _, hagain⟩ => ?_, fun hself => ⟨_, evaluates_made h p base,
      hkind.elim Net.hasRootDirectory Rooted.hasRootDirectory, ?_⟩⟩
    · obtain rfl := hr.unique (evaluates_made h p base)
      exact (evaluates_made h _ base).unique hagain
    · have hagain := evaluates_made h (made p base (made base current current)) base
      rwa [hself] at hagain
  exact hreally.trans (named_or_iff hbaseNet)

end

/-- `"/a"` with the base `"/b"`. -/
theorem reallyAbsolute_root : ReallyAbsolute ⟨[47]⟩ ⟨[47, 97]⟩ ⟨[47, 98]⟩ :=
  (reallyAbsolute_iff (by decide) (by decide) (by decide) (by decide)).mpr (by decide)

/-- With the base `"//"` every call puts two more separators in front of `"/a"`. -/
theorem not_always_absolute : ¬ ∀ current p base : Path, (0 : UInt8) ∉ p.path →
    (0 : UInt8) ∉ base.path → (0 : UInt8) ∉ current.path → current.IsAbsolute →
    ReallyAbsolute current p base := by
  intro h
  obtain ⟨r, ⟨n, hn⟩, -, ⟨m, hm⟩⟩ := h ⟨[47]⟩ ⟨[47, 97]⟩ ⟨[47, 47]⟩ (by decide) (by decide)
    (by decide) (by decide)
  have hfirst := hn (n + 1) (Nat.le_succ n)
  have hsecond := hm (m + 1) (Nat.le_succ m)
  obtain rfl : r = ⟨[47, 47, 47, 97]⟩ := (Option.some.inj hfirst).symm
  exact absurd (Option.some.inj hsecond) (by decide)

end Acatl.Path
