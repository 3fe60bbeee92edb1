/-
Acatl.Lexer — the lexer (`lexer.h`, `lexer.cpp`).

A definition is what its regular expression finds in the rest of the input: where,
how long, and what the first group of it captured. `next` takes the first definition
that finds something at the position, and calls itself behind white space and new
lines, so that it ends because no such match is empty.

A call also tells which lexemes it has consumed. The source does not keep them, and
nothing here reads them but the theorems.
-/
import Acatl.Lib.Machine
import Acatl.Text

namespace Acatl

namespace Lexer

/-! ## §1 Definitions and tokens -/

/-- `std::smatch`: `match[1]` is there if the expression has a group. -/
structure Match where
  position : Nat
  length : Nat
  group : Option Text

/-- `TokenDefinition`, with what `regex_search` finds between `_pos` and `_end`. -/
structure TokenDefinition where
  name : Text
  search : Text → Option Match
  token : Int
  fits : ∀ {rest m}, search rest = some m → m.position + m.length ≤ rest.length
  nonempty : ∀ {rest m}, search rest = some m → m.position = 0 → 0 < m.length

def UNDEFINED : Int := -1
def WHITESPACE : Int := -2
def NEWLINE : Int := -3
def EOI : Int := -4

/-- `Token`. -/
structure Token where
  name : Text := []
  token : Int := UNDEFINED
  value : Text := []
  lineCount : UInt32 := 0
  charCount : UInt16 := 0
  deriving DecidableEq

/-- A match that has moved the position. -/
structure Lexeme where
  start : Nat
  definition : TokenDefinition
  found : Match
  text : Text

/-- `match[1]` if there is one, else `match[0]`. -/
def Lexeme.value (l : Lexeme) : Text := l.found.group.getD l.text

/-- `LexicalAnalysisException`. -/
structure LexicalAnalysisException where
  message : Text
  deriving DecidableEq

/-- `\r|\n`. -/
def isNewline (c : UInt8) : Bool := c = 13 || c = 10

/-- `[ \t\f]`. -/
def isWhite (c : UInt8) : Bool := c = 32 || c = 9 || c = 12

def newline : TokenDefinition where
  name := Text.ofString "newline"
  search rest := (rest.findIdx? isNewline).map fun i => ⟨i, 1, none⟩
  token := NEWLINE
  fits h := by
    obtain ⟨i, hi, rfl⟩ := Option.map_eq_some_iff.mp h
    obtain ⟨hlt, -⟩ := List.findIdx?_eq_some_iff_getElem.mp hi
    exact hlt
  nonempty h _ := by
    obtain ⟨i, -, rfl⟩ := Option.map_eq_some_iff.mp h
    exact Nat.one_pos

def whitespace : TokenDefinition where
  name := Text.ofString "whitespace"
  search rest :=
    (rest.findIdx? isWhite).map fun i => ⟨i, ((rest.drop i).takeWhile isWhite).length, none⟩
  token := WHITESPACE
  fits {rest m} h := by
    obtain ⟨i, hi, rfl⟩ := Option.map_eq_some_iff.mp h
    obtain ⟨hlt, -⟩ := List.findIdx?_eq_some_iff_getElem.mp hi
    have hle : ((rest.drop i).takeWhile isWhite).length ≤ (rest.drop i).length :=
      (List.takeWhile_sublist isWhite).length_le
    rw [List.length_drop] at hle
    dsimp only
    omega
  nonempty h _ := by
    obtain ⟨i, hi, rfl⟩ := Option.map_eq_some_iff.mp h
    obtain ⟨hlt, hwhite, -⟩ := List.findIdx?_eq_some_iff_getElem.mp hi
    rw [List.drop_eq_getElem_cons hlt, List.takeWhile_cons_of_pos hwhite]
    exact Nat.succ_pos _

/-- What a call of `next` returns or throws, the lexemes that it has skipped, and the
one that it has found. -/
structure Call where
  result : Except LexicalAnalysisException Token
  skipped : List Lexeme := []
  found : Option Lexeme := none

/-- What the call has consumed. -/
def Call.lexemes (call : Call) : List Lexeme := call.skipped ++ call.found.toList

/-- The call that `next` makes behind a lexeme. -/
def Call.behind (l : Lexeme) (call : Call) : Call := { call with skipped := l :: call.skipped }

end Lexer

/-! ## §2 The lexer -/

open Lexer in
/-- `Lexer`. The callback may keep what it has seen, so it is given the tokens that it
was called with before; `_end` is the end of the input. -/
structure Lexer where
  definitions : List TokenDefinition
  callback : Option (List Token → Token → Token)
  inspected : List Token := []
  input : Text := []
  pos : Nat := 0
  lineCount : UInt32 := 1
  lineStart : Nat := 0

namespace Lexer

/-- `addDefinition`. -/
def addDefinition (lx : Lexer) (definition : TokenDefinition) : Lexer :=
  { lx with definitions := lx.definitions ++ [definition] }

/-- The constructor. -/
def construct (callback : Option (List Token → Token → Token)) : Lexer :=
  (({ definitions := [], callback } : Lexer).addDefinition newline).addDefinition whitespace

/-- `setInput`. -/
def setInput (lx : Lexer) (input : Text) : Lexer :=
  { lx with input, pos := 0, lineCount := 1, lineStart := 0 }

/-- What is left between `_pos` and `_end`. -/
def rest (lx : Lexer) : Text := lx.input.drop lx.pos

/-- The first definition that is found at the position. -/
def findDefinition (rest : Text) : List TokenDefinition → Option (TokenDefinition × Match)
  | [] => none
  | r :: rs =>
    match r.search rest with
    | some found => if found.position = 0 then some (r, found) else findDefinition rest rs
    | none => findDefinition rest rs

/-- The match of that definition. -/
def search (lx : Lexer) : Option Lexeme :=
  (findDefinition lx.rest lx.definitions).map fun (r, found) =>
    { start := lx.pos, definition := r, found, text := lx.rest.take found.length }

/-- The token for a match, with the line and the column in front of it. -/
def token (lx : Lexer) (l : Lexeme) : Token where
  name := l.definition.name
  token := l.definition.token
  value := l.value
  lineCount := lx.lineCount
  charCount := UInt16.ofNat (lx.pos - lx.lineStart) + 1

/-- `_pos = _pos + match.length()`. -/
def advance (lx : Lexer) (l : Lexeme) : Lexer := { lx with pos := lx.pos + l.found.length }

/-- `++_lineCount; _lineStart = _pos;` -/
def startLine (lx : Lexer) : Lexer :=
  { lx with lineCount := lx.lineCount + 1, lineStart := lx.pos }

/-- A line for every new line in the value of a token. -/
def countNewlines (lx : Lexer) (value : Text) : Lexer :=
  (value.filter isNewline).foldl (fun lx _ => lx.startLine) lx

/-- What the callback makes of a token. -/
def inspect (lx : Lexer) (token : Token) : Token × Lexer :=
  match lx.callback with
  | none => (token, lx)
  | some callback =>
    (callback lx.inspected token, { lx with inspected := lx.inspected ++ [token] })

def exception (lx : Lexer) : LexicalAnalysisException :=
  ⟨Text.ofString "could not match any regex at line " ++
    Text.ofString (toString lx.lineCount.toNat) ++ Text.ofString ":" ++
    Text.ofString (toString (lx.pos - lx.lineStart + 1))⟩

/-- The token at the end of the input. -/
def endOfInput : Token := { token := EOI }

/-! ## §3 Matches -/

/-- The match of the first definition that is found at the position. -/
structure FirstMatch (definitions : List TokenDefinition) (input : Text) (l : Lexeme) : Prop where
  first : ∃ before after, definitions = before ++ l.definition :: after ∧
    ∀ d ∈ before, ∀ m, d.search (input.drop l.start) = some m → m.position ≠ 0
  search : l.definition.search (input.drop l.start) = some l.found
  here : l.found.position = 0
  text : l.text = (input.drop l.start).take l.found.length

theorem findDefinition_eq_some {rest : Text} {r : TokenDefinition} {found : Match} :
    ∀ {definitions : List TokenDefinition},
      findDefinition rest definitions = some (r, found) →
      (∃ before after, definitions = before ++ r :: after ∧
        ∀ d ∈ before, ∀ m, d.search rest = some m → m.position ≠ 0) ∧
      r.search rest = some found ∧ found.position = 0
  | [], h => by cases h
  | d :: ds, h => by
    have hlater : findDefinition rest ds = some (r, found) →
        (∀ m, d.search rest = some m → m.position ≠ 0) →
        (∃ before after, d :: ds = before ++ r :: after ∧
          ∀ d ∈ before, ∀ m, d.search rest = some m → m.position ≠ 0) ∧
        r.search rest = some found ∧ found.position = 0 := by
      intro hrest hd
      obtain ⟨⟨before, after, rfl, hbefore⟩, hr⟩ := findDefinition_eq_some hrest
      exact ⟨⟨d :: before, after, rfl, List.forall_mem_cons.mpr ⟨hd, hbefore⟩⟩, hr⟩
    rw [findDefinition] at h
    cases hd : d.search rest with
    | none =>
      rw [hd] at h
      exact hlater h fun m hm => by rw [hd] at hm; cases hm
    | some m =>
      rw [hd] at h
      by_cases hhere : m.position = 0
      · obtain ⟨rfl, rfl⟩ := Prod.mk.inj (Option.some.inj ((if_pos hhere).symm.trans h))
        exact ⟨⟨[], ds, rfl, by simp⟩, hd, hhere⟩
      · refine hlater ((if_neg hhere).symm.trans h) fun m' hm' => ?_
        rw [hd] at hm'
        exact Option.some.inj hm' ▸ hhere

theorem search_eq_some {lx : Lexer} {l : Lexeme} (h : lx.search = some l) :
    l.start = lx.pos ∧ FirstMatch lx.definitions lx.input l := by
  obtain ⟨⟨r, found⟩, hfind, rfl⟩ := Option.map_eq_some_iff.mp h
  obtain ⟨hfirst, hsearch, hhere⟩ := findDefinition_eq_some hfind
  exact ⟨rfl, hfirst, hsearch, hhere, rfl⟩

section

variable {definitions : List TokenDefinition} {input : Text} {l : Lexeme}

theorem FirstMatch.length_pos (h : FirstMatch definitions input l) : 0 < l.found.length :=
  l.definition.nonempty h.search h.here

theorem FirstMatch.length_le (h : FirstMatch definitions input l) :
    l.start + l.found.length ≤ input.length := by
  have hfits := l.definition.fits h.search
  have hpos := h.length_pos
  rw [h.here, List.length_drop] at hfits
  omega

theorem FirstMatch.length_text (h : FirstMatch definitions input l) :
    l.text.length = l.found.length := by
  have hle := h.length_le
  rw [h.text, List.length_take, List.length_drop]
  omega

end

/-! ## §4 next -/

theorem search_decreases {lx : Lexer} {l : Lexeme} (h : lx.search = some l) :
    lx.input.length - (lx.pos + l.found.length) < lx.input.length - lx.pos := by
  obtain ⟨hstart, hfirst⟩ := search_eq_some h
  have hpos := hfirst.length_pos
  have hle := hfirst.length_le
  omega

/-- `next`. -/
def next (lx : Lexer) : Call × Lexer :=
  if lx.pos < lx.input.length then
    match _h : lx.search with
    | some l =>
      if l.definition.token = WHITESPACE then
        let (call, after) := next (lx.advance l)
        (call.behind l, after)
      else if l.definition.token = NEWLINE then
        let (call, after) := next (lx.advance l).startLine
        (call.behind l, after)
      else
        let (token, after) := ((lx.advance l).countNewlines l.value).inspect (lx.token l)
        ({ result := .ok token, found := some l }, after)
    | none => ({ result := .error lx.exception }, lx)
  else ({ result := .ok endOfInput }, lx)
termination_by lx.input.length - lx.pos
decreasing_by all_goals exact search_decreases (by assumption)

/-- Calls of `next`. -/
def calls : Lib.Machine Lexer Unit Call := fun lx _ => lx.next

/-! ## §5 What a call does -/

/-- The definitions whose matches are not returned. -/
def Lexeme.IsSkipped (l : Lexeme) : Prop :=
  l.definition.token = WHITESPACE ∨ l.definition.token = NEWLINE

/-- The state behind a match that is not returned. -/
def skip (lx : Lexer) (l : Lexeme) : Lexer :=
  if l.definition.token = WHITESPACE then lx.advance l else (lx.advance l).startLine

/-- The state behind a match that is returned, in front of the callback. -/
def keep (lx : Lexer) (l : Lexeme) : Lexer := (lx.advance l).countNewlines l.value

/-- The way from one state to another over matches that are not returned. -/
inductive Skips : Lexer → List Lexeme → Lexer → Prop
  | nil (lx : Lexer) : Skips lx [] lx
  | cons {lx last : Lexer} {l : Lexeme} {ls : List Lexeme} (hsearch : lx.search = some l)
      (hskipped : l.IsSkipped) (hrest : Skips (lx.skip l) ls last) : Skips lx (l :: ls) last

/-- How a call ends, behind what it has skipped. -/
inductive Ends (last : Lexer) (skipped : List Lexeme) : Call × Lexer → Prop
  | endOfInput (hpos : last.input.length ≤ last.pos) :
      Ends last skipped ({ result := .ok endOfInput, skipped }, last)
  | exception (hsearch : last.search = none) :
      Ends last skipped ({ result := .error last.exception, skipped }, last)
  | token {l : Lexeme} (hsearch : last.search = some l) (hkept : ¬ l.IsSkipped) :
      Ends last skipped
        ({ result := .ok ((last.keep l).inspect (last.token l)).1, skipped, found := some l },
          ((last.keep l).inspect (last.token l)).2)

theorem Ends.behind {last : Lexer} {skipped : List Lexeme} {out : Call × Lexer}
    (h : Ends last skipped out) (l : Lexeme) :
    Ends last (l :: skipped) (out.1.behind l, out.2) := by
  cases h with
  | endOfInput hpos => exact .endOfInput hpos
  | exception hsearch => exact .exception hsearch
  | token hsearch hkept => exact .token hsearch hkept

/-- **A call skips matches, and then returns or throws.** -/
theorem next_spec (lx : Lexer) :
    ∃ skipped last, Skips lx skipped last ∧ Ends last skipped lx.next := by
  fun_induction next lx with
  | case1 lx hpos l hsearch hwhite call after hnext ih =>
    obtain ⟨skipped, last, hskips, hends⟩ := ih
    rw [hnext] at hends
    refine ⟨l :: skipped, last, .cons hsearch (.inl hwhite) ?_, hends.behind l⟩
    rwa [skip, if_pos hwhite]
  | case2 lx hpos l hsearch hwhite hnewline call after hnext ih =>
    obtain ⟨skipped, last, hskips, hends⟩ := ih
    rw [hnext] at hends
    refine ⟨l :: skipped, last, .cons hsearch (.inr hnewline) ?_, hends.behind l⟩
    rwa [skip, if_neg hwhite]
  | case3 lx hpos l hsearch hwhite hnewline token after hinspect =>
    refine ⟨[], lx, .nil lx, ?_⟩
    have hends : Ends lx [] _ := .token hsearch (not_or.mpr ⟨hwhite, hnewline⟩)
    rwa [keep, hinspect] at hends
  | case4 lx hpos hsearch => exact ⟨[], lx, .nil lx, .exception hsearch⟩
  | case5 lx hpos => exact ⟨[], lx, .nil lx, .endOfInput (Nat.le_of_not_lt hpos)⟩

theorem startLines_eq {α : Type} (lines : List α) (lx : Lexer) :
    lines.foldl (fun lx _ => lx.startLine) lx =
      { lx with
        lineCount := lx.lineCount + UInt32.ofNat lines.length
        lineStart := if lines.length = 0 then lx.lineStart else lx.pos } := by
  induction lines generalizing lx with
  | nil => simp
  | cons line lines ih =>
    have hcount : lx.lineCount + 1 + UInt32.ofNat lines.length =
        lx.lineCount + (UInt32.ofNat lines.length + 1) := by
      rw [UInt32.add_assoc, UInt32.add_comm 1]
    rw [List.foldl_cons, ih]
    simp [startLine, hcount]

/-- The line count and the line start behind a value. -/
theorem countNewlines_eq (lx : Lexer) (value : Text) :
    lx.countNewlines value =
      { lx with
        lineCount := lx.lineCount + UInt32.ofNat (value.countP isNewline)
        lineStart := if value.countP isNewline = 0 then lx.lineStart else lx.pos } := by
  rw [countNewlines, startLines_eq, List.countP_eq_length_filter]

end Lexer

end Acatl
