/-
Acatl.PathExtension — `stem` and `extension`, which scan the file name for its
last dot, and `replace_extension`, which cuts off as much as they find.

A file name with a dot is its stem and its extension; without one it has
neither (`concatenates_iff`). What `replace_extension` writes is found again at
the end of the path, whatever the path was, as long as a pointer into the string
reaches to its end: there is no NUL in it (`replaceExtension_lens`).
-/
import Acatl.PathDecomposition

namespace Acatl.Path

/-! ## §1 The last dot -/

section

variable {q : Path} {front behind : Text}

/-- The scan stops at the last dot. -/
theorem findDot_behind (hq : q.path = front ++ dot :: behind) (hbehind : dot ∉ behind)
    (hdot : q.path ≠ [dot]) (hdotDot : q.path ≠ [dot, dot]) : q.findDot = some front.length := by
  have hempty : q.path ≠ [] := by simp [hq]
  have hpath : q.path = (front ++ [dot]) ++ behind ++ [] := by simp [hq]
  have hlength : (front ++ [dot]).length + behind.length = q.path.length := by
    rw [hpath, List.append_nil]
    exact List.length_append.symm
  have hother : ∀ c ∈ behind, decide (c ≠ dot) = true :=
    fun c hc => by simpa using fun h : c = dot => hbehind (h ▸ hc)
  have hscan := backWhile_behind hpath hother (by simp)
  rw [hlength, List.length_append, List.length_singleton, Nat.add_sub_cancel] at hscan
  have hchar : q.path.charAt front.length = dot := by
    have hat := charAt_append_right (u := front) (v := dot :: behind) 0
    rw [hq]
    exact hat
  -- neither of the two names that are left out
  have hspecial : ¬ (q.path.length - 1 = 0 ∧ q.path.charAt (q.path.length - 1) = dot ∨
      q.path.length - 1 = 1 ∧ q.path.charAt (q.path.length - 1) = dot ∧
        q.path.charAt (q.path.length - 1 - 1) = dot) := by
    rintro (⟨hlen, hlast⟩ | ⟨hlen, hlast, hfirst⟩)
    · rw [hlen] at hlast
      obtain ⟨a, path, hcons⟩ := List.exists_cons_of_ne_nil hempty
      rw [hcons, List.length_cons, Nat.add_sub_cancel] at hlen
      rw [hcons] at hlast
      obtain rfl : a = dot := hlast
      rw [List.length_eq_zero_iff.mp hlen] at hcons
      exact hdot hcons
    · rw [hlen] at hlast hfirst
      obtain ⟨a, b, hcons⟩ := List.length_eq_two.mp (by omega : q.path.length = 2)
      rw [hcons] at hlast hfirst
      obtain rfl : b = dot := hlast
      obtain rfl : a = dot := hfirst
      exact hdotDot hcons
  simp only [findDot, if_neg hempty, if_neg hspecial, hscan, hchar, if_true]

theorem findDot_none (hq : dot ∉ q.path) : q.findDot = none := by
  have hchar : ∀ i, q.path.charAt i ≠ dot := by
    intro i hi
    by_cases hlen : i < q.path.length
    · exact hq (hi ▸ charAt_mem hlen)
    · rw [Text.charAt, List.getD_eq_default _ _ (by omega)] at hi
      exact absurd hi (by decide)
  by_cases hempty : q.path = []
  · rw [findDot, if_pos hempty]
  · simp [findDot, hempty, hchar]

theorem exists_last_dot (h : dot ∈ q.path) :
    ∃ front behind, q.path = front ++ dot :: behind ∧ dot ∉ behind := by
  obtain ⟨left, behind, hq, hbehind, hleft⟩ := exists_behind (· ≠ dot) q.path
  have hnone : dot ∉ behind := fun hmem => by simpa using hbehind dot hmem
  have hne : left ≠ [] := by
    intro hnil
    rw [hq, hnil, List.nil_append] at h
    exact hnone h
  have hlast := List.getLast?_eq_some_getLast hne
  have hdot : left.getLast hne = dot := by simpa using hleft _ hlast
  refine ⟨left.dropLast, behind, ?_, hnone⟩
  rw [hq]
  conv_lhs => rw [← List.dropLast_concat_getLast hne, hdot]
  simp

end

variable {p : Path} {front behind : Text}

/-- A file name is made from a pointer, or it has no NUL for another reason. -/
theorem nul_notMem_filename (p : Path) : (0 : UInt8) ∉ p.filename.path := by
  have hpointer : ∀ s, (0 : UInt8) ∉ (p.fromPointer s).path := by
    intro s h0
    simpa using List.mem_takeWhile_imp h0
  rw [filename]
  split
  · simp
  split
  · rename_i hroot
    rw [hroot]
    decide
  dsimp only
  split
  · decide
  split
  · exact hpointer 0
  split
  · exact hpointer 0
  · exact hpointer _

theorem stem_eq (h : p.filename.path = front ++ dot :: behind) (hbehind : dot ∉ behind)
    (hdot : p.filename.path ≠ [dot]) (hdotDot : p.filename.path ≠ [dot, dot]) :
    p.stem.path = front := by
  rw [stem, findDot_behind h hbehind hdot hdotDot]
  simp [h, Text.substr]

theorem extension_eq (h : p.filename.path = front ++ dot :: behind) (hbehind : dot ∉ behind)
    (hdot : p.filename.path ≠ [dot]) (hdotDot : p.filename.path ≠ [dot, dot]) :
    p.extension.path = dot :: behind := by
  rw [extension, findDot_behind h hbehind hdot hdotDot]
  exact fromPointer_eq (nul_notMem_filename p) h

/-! ## §2 stem and extension -/

/-- The stem and the extension are the file name, and there is a dot at the
beginning of the extension and nowhere else in it. -/
structure Concatenates (p : Path) : Prop where
  filename : p.stem.path ++ p.extension.path = p.filename.path
  extension : p.extension.path = [] ∨
    ∃ behind, p.extension.path = dot :: behind ∧ dot ∉ behind

/-- **stem and extension are the parts of a file name that has a dot.** -/
theorem concatenates_iff (p : Path) (hempty : p.filename.path ≠ [])
    (hdot : p.filename.path ≠ [dot]) (hdotDot : p.filename.path ≠ [dot, dot]) :
    p.Concatenates ↔ dot ∈ p.filename.path := by
  refine ⟨fun h => ?_, fun h => ?_⟩
  · by_contra hnone
    have hstem : p.stem.path = [] := by rw [stem, findDot_none hnone]
    have hextension : p.extension.path = [] := by rw [extension, findDot_none hnone]
    have hname := h.filename
    rw [hstem, hextension] at hname
    exact hempty hname.symm
  · obtain ⟨front, behind, hname, hbehind⟩ := exists_last_dot h
    have hextension := extension_eq hname hbehind hdot hdotDot
    refine ⟨?_, .inr ⟨behind, hextension, hbehind⟩⟩
    rw [stem_eq hname hbehind hdot hdotDot, hextension, hname]

/-- `"a.b"`. -/
theorem concatenates_iff_dotted : Concatenates ⟨[97, 46, 98]⟩ ↔
    dot ∈ (filename ⟨[97, 46, 98]⟩).path :=
  concatenates_iff ⟨[97, 46, 98]⟩ (by decide) (by decide) (by decide)

/-- `"a"` has no stem. -/
theorem not_always_concatenates : ¬ ∀ p : Path, (0 : UInt8) ∉ p.path → p.filename.path ≠ [] →
    p.filename.path ≠ [dot] → p.filename.path ≠ [dot, dot] → p.Concatenates := by
  intro h
  have hname := (h ⟨[97]⟩ (by decide) (by decide) (by decide) (by decide)).filename
  exact absurd hname (by decide)

/-! ## §3 replace_extension -/

/-- A string that can be an extension, without its dot. -/
structure Suffix (e : Text) : Prop where
  nonempty : e ≠ []
  noSeparator : separator ∉ e
  noDot : dot ∉ e

/-- A path without its extension. -/
def base (p : Path) : Text :=
  if p.extension.path ≠ [] then p.path.substr 0 (p.path.length - p.extension.path.length)
  else p.path

theorem base_prefix (p : Path) : p.base <+: p.path := by
  rw [base]
  split
  · rw [Text.substr, List.drop_zero]
    exact List.take_prefix _ _
  · exact List.prefix_refl _

variable {e : Text}

/-- The dot is written, or it is there. -/
theorem replaceExtension_plain (p : Path) (he : Suffix e) :
    p.replaceExtension ⟨e⟩ = ⟨p.base ++ dot :: e⟩ := by
  have hfirst : Text.charAt e 0 ≠ dot := by
    obtain ⟨a, others, rfl⟩ := List.exists_cons_of_ne_nil he.nonempty
    exact fun h => he.noDot (by rw [← show a = dot from h]; simp)
  simp only [replaceExtension, if_neg he.nonempty, if_pos hfirst, base, List.append_assoc,
    List.singleton_append]

theorem replaceExtension_dotted (p : Path) (e : Text) :
    p.replaceExtension ⟨dot :: e⟩ = ⟨p.base ++ dot :: e⟩ := by
  simp [replaceExtension, base, Text.charAt]

/-- A suffix behind a dot is the extension, whatever is in front of it. -/
theorem extension_suffix {b : Text} (hb : (0 : UInt8) ∉ b) (he : Suffix e)
    (henul : (0 : UInt8) ∉ e) : extension ⟨b ++ dot :: e⟩ = ⟨dot :: e⟩ := by
  obtain ⟨front, seps, name, rfl, hends⟩ := exists_ends hb
  have hplain : Plain (name ++ dot :: e) := by
    have hsuffix : Plain e :=
      fun c hc => ⟨fun h0 => henul (h0 ▸ hc), fun hsep => he.noSeparator (hsep ▸ hc)⟩
    exact hends.plain.append (plain_dot.append hsuffix)
  have hends' : Ends front seps (name ++ dot :: e) :=
    ⟨hends.separators, hplain, hends.stop, hends.between⟩
  have hnul : (0 : UInt8) ∉ front ++ seps ++ name ++ dot :: e := by
    simpa [henul, dot] using hb
  have hfilename := filename_name (p := ⟨front ++ seps ++ name ++ dot :: e⟩) hends'
    (List.append_assoc _ _ _) hnul (by simp)
  -- the file name is a name, or one with the two separators of a root in front of it
  obtain ⟨left, hleft⟩ : ∃ left, (filename ⟨front ++ seps ++ name ++ dot :: e⟩).path =
      left ++ dot :: e := by
    rw [hfilename]
    split
    · exact ⟨seps ++ name, by rw [List.append_assoc]⟩
    · exact ⟨name, rfl⟩
  have hdot : (filename ⟨front ++ seps ++ name ++ dot :: e⟩).path ≠ [dot] := by
    rw [hleft]
    intro h
    have hlength := congrArg List.length h
    have hpos := List.length_pos_iff.mpr he.nonempty
    rw [List.length_append, List.length_cons, List.length_singleton] at hlength
    omega
  have hdotDot : (filename ⟨front ++ seps ++ name ++ dot :: e⟩).path ≠ [dot, dot] := by
    rw [hleft]
    intro h
    have hlength := congrArg List.length h
    have hpos := List.length_pos_iff.mpr he.nonempty
    rw [List.length_append, List.length_cons, List.length_cons, List.length_singleton] at hlength
    obtain rfl : left = [] := List.length_eq_zero_iff.mp (by omega)
    obtain rfl : e = [dot] := List.tail_eq_of_cons_eq h
    exact he.noDot (by simp)
  exact congrArg Path.mk (extension_eq hleft he.noDot hdot hdotDot)

/-- **What `replace_extension` writes is what `extension` finds**, and what it
cuts off again. A string with a NUL is written, but not found. -/
theorem replaceExtension_lens (p : Path) (hnul : (0 : UInt8) ∉ p.path) {e e' : Text}
    (he : Suffix e) (he' : Suffix e') :
    ((0 : UInt8) ∉ e → (p.replaceExtension ⟨e⟩).extension = ⟨dot :: e⟩) ∧
      p.replaceExtension ⟨dot :: e⟩ = p.replaceExtension ⟨e⟩ ∧
      ((0 : UInt8) ∉ e' →
        (p.replaceExtension ⟨e'⟩).replaceExtension ⟨e⟩ = p.replaceExtension ⟨e⟩) := by
  have hbase : (0 : UInt8) ∉ p.base := fun h0 => hnul (p.base_prefix.subset h0)
  refine ⟨fun henul => ?_, ?_, fun henul' => ?_⟩
  · rw [replaceExtension_plain p he, extension_suffix hbase he henul]
  · rw [replaceExtension_plain p he, replaceExtension_dotted]
  · have hsame : (p.replaceExtension ⟨e'⟩).base = p.base := by
      rw [replaceExtension_plain p he', base, extension_suffix hbase he' henul',
        if_pos (by simp)]
      simp [Text.substr]
    rw [replaceExtension_plain _ he, replaceExtension_plain p he, hsame]

/-- `"a"` with the extensions `"b"` and `"c"`. -/
theorem replaceExtension_lens_named :
    (replaceExtension ⟨[97]⟩ ⟨[98]⟩).extension = ⟨[46, 98]⟩ ∧
      replaceExtension ⟨[97]⟩ ⟨[46, 98]⟩ = replaceExtension ⟨[97]⟩ ⟨[98]⟩ ∧
      (replaceExtension ⟨[97]⟩ ⟨[99]⟩).replaceExtension ⟨[98]⟩ =
        replaceExtension ⟨[97]⟩ ⟨[98]⟩ := by
  have hsuffix {c : UInt8} (hc : c ≠ separator ∧ c ≠ dot) : Suffix [c] :=
    ⟨by simp, by simpa using hc.1.symm, by simpa using hc.2.symm⟩
  obtain ⟨hget, hdotted, hput⟩ := replaceExtension_lens ⟨[97]⟩ (by decide)
    (hsuffix (c := 98) (by decide)) (hsuffix (c := 99) (by decide))
  exact ⟨hget (by decide), hdotted, hput (by decide)⟩

/-- `"a"` with an extension of two characters that begins with a NUL. -/
theorem not_always_lens : ¬ ∀ p : Path, (0 : UInt8) ∉ p.path → ∀ e e', Suffix e → Suffix e' →
    (p.replaceExtension ⟨e⟩).extension = ⟨dot :: e⟩ ∧
      p.replaceExtension ⟨dot :: e⟩ = p.replaceExtension ⟨e⟩ ∧
      (p.replaceExtension ⟨e'⟩).replaceExtension ⟨e⟩ = p.replaceExtension ⟨e⟩ := by
  intro h
  have hsuffix : Suffix [0, 98] := ⟨by decide, by decide, by decide⟩
  have hget := (h ⟨[97]⟩ (by decide) [0, 98] [0, 98] hsuffix hsuffix).1
  exact absurd hget (by decide)

end Acatl.Path
