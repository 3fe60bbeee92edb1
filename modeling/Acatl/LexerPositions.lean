/-
Acatl.LexerPositions — the line and the column of a token.

The lexer counts the new lines in the VALUE of a token, and takes the last of them
to be at its end; behind a match of a definition for new lines it counts one line.
As long as that is so (`Tracked`), line count and line start are those of the
position (`Located`), and the tokens are where they say they are
(`positions_right`). The two definitions of the constructor are always so.
-/
import Acatl.Lib.Occurrences
import Acatl.LexerPartition
import Mathlib.Algebra.Group.Nat.Defs
import Mathlib.Data.List.DropRight

namespace Acatl.Lexer

/-! ## §1 Lines and columns of a text -/

/-- The new lines in a text. -/
def newlines (text : Text) : Nat := text.countP isNewline

/-- The characters behind the last new line of a text. -/
def column (text : Text) : Nat := (text.rtakeWhile fun c => !isNewline c).length

theorem newlines_append (a b : Text) : newlines (a ++ b) = newlines a + newlines b :=
  List.countP_append

theorem newlines_eq_zero {text : Text} : newlines text = 0 ↔ ∀ c ∈ text, isNewline c = false := by
  simp [newlines, List.countP_eq_zero]

theorem column_concat (text : Text) (c : UInt8) :
    column (text ++ [c]) = if isNewline c then 0 else column text + 1 := by
  rw [column, List.rtakeWhile_concat]
  by_cases hc : isNewline c = true
  · simp [hc]
  · simp [hc, column]

/-- Behind a new line only what follows it counts. -/
theorem column_append (a b : Text) :
    column (a ++ b) = if newlines b = 0 then column a + b.length else column b := by
  induction b using List.reverseRecOn with
  | nil => simp [newlines]
  | append_singleton b c ih =>
    rw [← List.append_assoc, column_concat, column_concat, newlines_append]
    by_cases hc : isNewline c = true
    · simp [hc, newlines]
    · have hone : newlines [c] = 0 := by simp [newlines, hc]
      rw [if_neg hc, if_neg hc, hone, Nat.add_zero, ih, List.length_append]
      by_cases hb : newlines b = 0
      · simp [hb, Nat.add_assoc]
      · simp [hb]

/-! ## §2 What the lexer keeps -/

/-- What the lexer does behind a lexeme is what the text of the lexeme does. -/
def Tracked (l : Lexeme) : Prop :=
  if l.definition.token = WHITESPACE then newlines l.text = 0
  else if l.definition.token = NEWLINE then newlines l.text = 1 ∧ column l.text = 0
  else newlines l.value = newlines l.text ∧ (newlines l.text ≠ 0 → column l.text = 0)

/-- The line count and the line start are those of the position. -/
structure Located (lx : Lexer) : Prop where
  line : lx.lineCount = UInt32.ofNat (1 + newlines (lx.input.take lx.pos))
  start : lx.lineStart + column (lx.input.take lx.pos) = lx.pos

section

variable {lx last : Lexer} {l : Lexeme}

theorem take_search (h : lx.search = some l) :
    lx.input.take (lx.pos + l.found.length) = lx.input.take lx.pos ++ l.text := by
  obtain ⟨hstart, hfirst⟩ := search_eq_some h
  rw [List.take_add, hfirst.text, hstart]

theorem setInput_located (lexer : Lexer) (input : Text) : Located (lexer.setInput input) :=
  ⟨rfl, rfl⟩

/-- A lexeme without new lines. -/
theorem located_same {after : Lexer} (h : Located lx) (hsearch : lx.search = some l)
    (hlines : newlines l.text = 0) (hinput : after.input = lx.input)
    (hpos : after.pos = lx.pos + l.found.length) (hcount : after.lineCount = lx.lineCount)
    (hstart : after.lineStart = lx.lineStart) : Located after := by
  have hlen := (search_eq_some hsearch).2.length_text
  have hline := h.line
  have hcolumn := h.start
  refine ⟨?_, ?_⟩
  · rw [hinput, hpos, take_search hsearch, newlines_append, hlines, hcount, hline, Nat.add_zero]
  · rw [hinput, hpos, take_search hsearch, column_append, if_pos hlines, hstart, hlen]
    omega

/-- A lexeme that ends with the last of its new lines. -/
theorem located_ends {after : Lexer} (h : Located lx) (hsearch : lx.search = some l)
    (hlines : newlines l.text ≠ 0) (hcolumn : column l.text = 0) (hinput : after.input = lx.input)
    (hpos : after.pos = lx.pos + l.found.length)
    (hcount : after.lineCount = lx.lineCount + UInt32.ofNat (newlines l.text))
    (hstart : after.lineStart = after.pos) : Located after := by
  refine ⟨?_, ?_⟩
  · rw [hinput, hpos, take_search hsearch, newlines_append, hcount, h.line, ← Nat.add_assoc]
    exact (UInt32.ofNat_add _ _).symm
  · rw [hinput, hpos, take_search hsearch, column_append, if_neg hlines, hcolumn, hstart, hpos,
      Nat.add_zero]

theorem skip_located (h : Located lx) (hsearch : lx.search = some l) (hskipped : l.IsSkipped)
    (htracked : Tracked l) : Located (lx.skip l) := by
  rw [Tracked] at htracked
  rw [skip]
  by_cases hwhite : l.definition.token = WHITESPACE
  · rw [if_pos hwhite] at htracked ⊢
    exact located_same h hsearch htracked rfl rfl rfl rfl
  · have hnewline := hskipped.resolve_left hwhite
    rw [if_neg hwhite, if_pos hnewline] at htracked
    obtain ⟨hone, hcolumn⟩ := htracked
    rw [if_neg hwhite]
    refine located_ends h hsearch (by omega) hcolumn rfl rfl ?_ rfl
    rw [hone]
    rfl

theorem keep_located (h : Located lx) (hsearch : lx.search = some l) (hkept : ¬ l.IsSkipped)
    (htracked : Tracked l) : Located (lx.keep l) := by
  obtain ⟨hwhite, hnewline⟩ := not_or.mp hkept
  rw [Tracked, if_neg hwhite, if_neg hnewline] at htracked
  obtain ⟨hvalue, hcolumn⟩ := htracked
  rw [keep, countNewlines_eq]
  rw [newlines] at hvalue
  by_cases hlines : newlines l.text = 0
  · refine located_same h hsearch hlines rfl rfl ?_ ?_
    · rw [hvalue, hlines]
      exact UInt32.add_zero _
    · rw [hvalue, hlines]
      rfl
  · refine located_ends h hsearch hlines (hcolumn hlines) rfl rfl ?_ ?_
    · rw [hvalue]
      rfl
    · rw [hvalue]
      exact if_neg hlines

theorem inspect_located (h : Located lx) (token : Token) : Located (lx.inspect token).2 := by
  rw [inspect]
  split
  · exact h
  · exact ⟨h.line, h.start⟩

theorem Skips.located {ls : List Lexeme} (hskips : Skips lx ls last) (h : Located lx)
    (htracked : ∀ l ∈ ls, Tracked l) : Located last := by
  induction hskips with
  | nil lx => exact h
  | cons hsearch hskipped _ ih =>
    obtain ⟨hl, hls⟩ := List.forall_mem_cons.mp htracked
    exact ih (skip_located h hsearch hskipped hl) hls

/-- A call all of whose lexemes are tracked. -/
theorem next_located (h : Located lx) (htracked : ∀ l ∈ lx.next.1.lexemes, Tracked l) :
    Located lx.next.2 := by
  obtain ⟨skipped, last, hskips, hends⟩ := next_spec lx
  generalize lx.next = out at hends htracked
  cases hends with
  | endOfInput => exact hskips.located h fun l hl => htracked l (by simp [Call.lexemes, hl])
  | exception => exact hskips.located h fun l hl => htracked l (by simp [Call.lexemes, hl])
  | @token l hsearch hkept =>
    have hlast := hskips.located h fun l hl => htracked l (by simp [Call.lexemes, hl])
    exact inspect_located
      (keep_located hlast hsearch hkept (htracked l (by simp [Call.lexemes]))) _

end

/-- All calls so far. -/
theorem after_located {lx : Lexer} {run : List Unit} (h : Located lx)
    (htracked : ∀ l ∈ lx.lexemes run, Tracked l) : Located (calls.after lx run) := by
  induction run generalizing lx with
  | nil => exact h
  | cons i is ih =>
    obtain ⟨hcall, hrest⟩ := List.forall_mem_append.mp htracked
    exact ih (next_located h hcall) hrest

/-! ## §3 Tokens -/

/-- The callback leaves the position of a token alone. -/
def KeepsPositions (callback : Option (List Token → Token → Token)) : Prop :=
  ∀ f ∈ callback, ∀ before token,
    (f before token).lineCount = token.lineCount ∧ (f before token).charCount = token.charCount

/-- The line and the column of a token are those of the first character of its lexeme. -/
structure RightPosition (input : Text) (l : Lexeme) (token : Token) : Prop where
  line : token.lineCount.toNat = 1 + newlines (input.take l.start)
  column : 1 + column (input.take l.start) < 65536 →
    token.charCount.toNat = 1 + column (input.take l.start)

section

variable {lx : Lexer} {l : Lexeme}

theorem inspect_keeps (h : KeepsPositions lx.callback) (token : Token) :
    (lx.inspect token).1.lineCount = token.lineCount ∧
      (lx.inspect token).1.charCount = token.charCount := by
  rw [inspect]
  cases hcallback : lx.callback with
  | none => exact ⟨rfl, rfl⟩
  | some f => exact h f hcallback lx.inspected token

/-- The position of the lexer is that of the token that it makes there. -/
theorem token_right (h : Located lx) (hsearch : lx.search = some l)
    (hlines : 1 + newlines (lx.input.take l.start) < 2 ^ 32) :
    RightPosition lx.input l (lx.token l) := by
  have hstart := (search_eq_some hsearch).1
  rw [hstart] at hlines
  refine ⟨?_, fun hcolumn => ?_⟩
  · rw [hstart, token, h.line, UInt32.toNat_ofNat_of_lt' hlines]
  · have hdistance : lx.pos - lx.lineStart = column (lx.input.take lx.pos) := by
      have hcolumn := h.start
      omega
    rw [hstart] at hcolumn ⊢
    have hsmall : column (lx.input.take lx.pos) < 65536 := by omega
    rw [token, hdistance, UInt16.toNat_add, UInt16.toNat_ofNat_of_lt' hsmall, Nat.add_comm]
    exact Nat.mod_eq_of_lt hcolumn

/-- The call that finds a lexeme, with everything in front of it tracked. -/
theorem next_right (h : Located lx) (hkeeps : KeepsPositions lx.callback) {token : Token}
    (hfound : lx.next.1.found = some l) (hresult : lx.next.1.result = .ok token)
    (htracked : ∀ l ∈ lx.next.1.skipped, Tracked l)
    (hlines : 1 + newlines (lx.input.take l.start) < 2 ^ 32) :
    RightPosition lx.input l token := by
  obtain ⟨skipped, last, hskips, hends⟩ := next_spec lx
  generalize lx.next = out at hends hfound hresult htracked
  cases hends with
  | endOfInput => cases hfound
  | exception => cases hfound
  | @token l' hsearch hkept =>
    obtain rfl : l' = l := Option.some.inj hfound
    obtain rfl := Except.ok.inj hresult
    have hlast := hskips.located h htracked
    have hright := token_right hlast hsearch (hskips.same.input ▸ hlines)
    have hcallback := (keep_same last l').callback.trans hskips.same.callback
    obtain ⟨hline, hchar⟩ := inspect_keeps (hcallback ▸ hkeeps) (last.token l')
    rw [← hskips.same.input]
    exact ⟨hline ▸ hright.line, fun hcolumn => hchar ▸ hright.column hcolumn⟩

end

/-! ## §4 The definitions of the constructor -/

/-- A lexer to which definitions were added. -/
def withDefinitions (callback : Option (List Token → Token → Token))
    (definitions : List TokenDefinition) : Lexer :=
  definitions.foldl addDefinition (construct callback)

theorem foldl_addDefinition (definitions : List TokenDefinition) (lx : Lexer) :
    definitions.foldl addDefinition lx =
      { lx with definitions := lx.definitions ++ definitions } := by
  induction definitions generalizing lx with
  | nil => simp
  | cons d ds ih => simp [ih, addDefinition]

theorem withDefinitions_eq (callback : Option (List Token → Token → Token))
    (definitions : List TokenDefinition) :
    withDefinitions callback definitions =
      { construct callback with definitions := newline :: whitespace :: definitions } := by
  rw [withDefinitions, foldl_addDefinition]
  rfl

theorem isNewline_of_isWhite {c : UInt8} (h : isWhite c = true) : isNewline c = false := by
  simp only [isWhite, Bool.or_eq_true, decide_eq_true_eq] at h
  obtain (rfl | rfl) | rfl := h <;> decide

section

variable {definitions : List TokenDefinition} {input : Text} {l : Lexeme}

/-- A definition that looks for the first character of a kind has found it here. -/
theorem findIdx?_here {kind : UInt8 → Bool} {rest : Text} {make : Nat → Match} {m : Match}
    (hmake : ∀ i, (make i).position = i) (hsearch : (rest.findIdx? kind).map make = some m)
    (hhere : m.position = 0) : m = make 0 ∧ ∃ c cs, rest = c :: cs ∧ kind c = true := by
  obtain ⟨i, hi, rfl⟩ := Option.map_eq_some_iff.mp hsearch
  obtain rfl : i = 0 := (hmake i).symm.trans hhere
  cases rest with
  | nil => cases hi
  | cons c cs =>
    obtain ⟨_, hc, -⟩ := List.findIdx?_eq_some_iff_getElem.mp hi
    exact ⟨rfl, c, cs, rfl, hc⟩

/-- One new line. -/
theorem newline_tracked (h : FirstMatch definitions input l) (hl : l.definition = newline) :
    Tracked l := by
  have hsearch := h.search
  rw [hl] at hsearch
  obtain ⟨hfound, c, cs, hrest, hc⟩ := findIdx?_here (fun _ => rfl) hsearch h.here
  have htext : l.text = [] ++ [c] := by
    rw [h.text, hfound, hrest]
    rfl
  have htoken : newline.token = NEWLINE := rfl
  rw [Tracked, hl, if_neg (by decide), if_pos htoken, htext, column_concat, if_pos hc]
  exact ⟨by simp [newlines, hc], rfl⟩

/-- No new line. -/
theorem whitespace_tracked (h : FirstMatch definitions input l) (hl : l.definition = whitespace) :
    Tracked l := by
  have hsearch := h.search
  rw [hl] at hsearch
  obtain ⟨hfound, -⟩ := findIdx?_here (fun _ => rfl) hsearch h.here
  have hwhite : l.text = (input.drop l.start).takeWhile isWhite := by
    rw [h.text, hfound, List.drop_zero]
    exact (List.prefix_iff_eq_take.mp (List.takeWhile_prefix isWhite)).symm
  have htoken : whitespace.token = WHITESPACE := rfl
  rw [Tracked, hl, if_pos htoken, newlines_eq_zero, hwhite]
  exact fun c hc => isNewline_of_isWhite (List.mem_takeWhile_imp hc)

/-- So only the definitions that were added can be wrong. -/
theorem tracked_of_added (h : FirstMatch (newline :: whitespace :: definitions) input l)
    (hadded : l.definition ∈ definitions → Tracked l) : Tracked l := by
  obtain ⟨before, after, hsplit, -⟩ := h.first
  have hmem : l.definition ∈ newline :: whitespace :: definitions := by simp [hsplit]
  rcases List.mem_cons.mp hmem with hl | hmem
  · exact newline_tracked h hl
  rcases List.mem_cons.mp hmem with hl | hmem
  · exact whitespace_tracked h hl
  · exact hadded hmem

end

/-! ## §5 All tokens -/

/-- A lexer with its definitions and its input. -/
def started (callback : Option (List Token → Token → Token)) (definitions : List TokenDefinition)
    (input : Text) : Lexer :=
  (withDefinitions callback definitions).setInput input

/-- **Where the tokens are.** Every token that a call returns is where it says it is, if
what the added definitions have matched before it is tracked. -/
theorem positions_right {callback : Option (List Token → Token → Token)}
    (hkeeps : KeepsPositions callback) {definitions : List TokenDefinition} {input : Text}
    {run : List Unit} {l : Lexeme} {token : Token}
    (hfound : (calls.after (started callback definitions input) run).next.1.found = some l)
    (hresult : (calls.after (started callback definitions input) run).next.1.result = .ok token)
    (htracked : ∀ l ∈ (started callback definitions input).lexemes run ++
      (calls.after (started callback definitions input) run).next.1.skipped,
        l.definition ∈ definitions → Tracked l)
    (hlines : 1 + newlines (input.take l.start) < 2 ^ 32) : RightPosition input l token := by
  generalize hlx : started callback definitions input = lx at hfound hresult htracked
  rw [started, withDefinitions_eq] at hlx
  have hinput : lx.input = input := hlx ▸ rfl
  have hdefinitions : lx.definitions = newline :: whitespace :: definitions := hlx ▸ rfl
  have hcallback : lx.callback = callback := hlx ▸ rfl
  have hsame := after_same lx run
  obtain ⟨hbefore, hskipped⟩ := List.forall_mem_append.mp htracked
  have hstart : Located lx := hlx ▸ setInput_located _ input
  have hlocated : Located (calls.after lx run) := by
    have hfirst := run_first lx run
    rw [hdefinitions] at hfirst
    exact after_located hstart fun l hl => tracked_of_added (hfirst l hl) (hbefore l hl)
  have hfirst := next_first (calls.after lx run)
  rw [hsame.definitions, hdefinitions] at hfirst
  rw [← hinput, ← hsame.input] at hlines ⊢
  refine next_right hlocated (by rw [hsame.callback, hcallback]; exact hkeeps) hfound hresult
    (fun l hl => tracked_of_added (hfirst l ?_) (hskipped l hl)) hlines
  exact List.mem_append_left _ hl

/-! ## §6 A new line inside a token -/

/-- A definition of one text. -/
def literal (name text : Text) (token : Int) (hne : text ≠ []) : TokenDefinition where
  name
  search rest := (Lib.find text rest).map fun i => ⟨i, text.length, none⟩
  token
  fits h := by
    obtain ⟨i, hi, rfl⟩ := Option.map_eq_some_iff.mp h
    obtain ⟨⟨front, back, rfl, rfl⟩, -⟩ := Lib.find_eq_some hi
    simp
  nonempty h _ := by
    obtain ⟨i, -, rfl⟩ := Option.map_eq_some_iff.mp h
    exact List.length_pos_iff.mpr hne

section

variable {lx : Lexer} {l : Lexeme}

theorem pos_lt_of_search (h : lx.search = some l) : lx.pos < lx.input.length := by
  obtain ⟨hstart, hfirst⟩ := search_eq_some h
  have hpos := hfirst.length_pos
  have hle := hfirst.length_le
  omega

theorem next_of_keep (h : lx.search = some l) (hkept : ¬ l.IsSkipped) :
    lx.next = ({ result := .ok ((lx.keep l).inspect (lx.token l)).1, found := some l },
      ((lx.keep l).inspect (lx.token l)).2) := by
  obtain ⟨hwhite, hnewline⟩ := not_or.mp hkept
  rw [next, if_pos (pos_lt_of_search h)]
  split
  · rename_i l' h'
    obtain rfl : l = l' := Option.some.inj (h.symm.trans h')
    rw [if_neg hwhite, if_neg hnewline]
    rfl
  · rename_i h'
    cases h.symm.trans h'

theorem next_of_skip (h : lx.search = some l) (hskipped : l.IsSkipped) :
    lx.next = ((lx.skip l).next.1.behind l, (lx.skip l).next.2) := by
  rw [next, if_pos (pos_lt_of_search h)]
  split
  · rename_i l' h'
    obtain rfl : l = l' := Option.some.inj (h.symm.trans h')
    rw [skip]
    by_cases hwhite : l.definition.token = WHITESPACE
    · rw [if_pos hwhite, if_pos hwhite]
    · rw [if_neg hwhite, if_pos (hskipped.resolve_left hwhite), if_neg hwhite]
  · rename_i h'
    cases h.symm.trans h'

end

/-- `/*`, a new line, `*/`. -/
def comment : TokenDefinition :=
  literal (Text.ofString "comment") [47, 42, 10, 42, 47] 0 (by decide)

def letter : TokenDefinition := literal (Text.ofString "letter") [97] 1 (by decide)

/-- The comment, white space and the letter of the input `/*`, new line, `*/ a`. -/
def commentLexeme : Lexeme := ⟨0, comment, ⟨0, 5, none⟩, [47, 42, 10, 42, 47]⟩
def blankLexeme : Lexeme := ⟨5, whitespace, ⟨0, 1, none⟩, [32]⟩
def letterLexeme : Lexeme := ⟨6, letter, ⟨0, 1, none⟩, [97]⟩

/-- The letter stands in column 4, but behind the comment the lexer counts from its end. -/
theorem letter_behind_comment :
    ∃ token, (calls.after (started none [comment, letter] [47, 42, 10, 42, 47, 32, 97])
        [()]).next.1.found = some letterLexeme ∧
      (calls.after (started none [comment, letter] [47, 42, 10, 42, 47, 32, 97])
        [()]).next.1.result = .ok token ∧ token.charCount = 2 := by
  generalize hlx : started none [comment, letter] [47, 42, 10, 42, 47, 32, 97] = lx
  have hcomment : lx.search = some commentLexeme := hlx ▸ rfl
  have hfirst := next_of_keep hcomment (by unfold Lexeme.IsSkipped; decide)
  generalize hlx' : lx.next.2 = lx'
  have hblank : lx'.search = some blankLexeme := by
    rw [← hlx', hfirst, ← hlx]
    rfl
  have hletter : (lx'.skip blankLexeme).search = some letterLexeme := by
    rw [← hlx', hfirst, ← hlx]
    rfl
  have hafter : calls.after lx [()] = lx' := hlx'
  rw [hafter, next_of_skip hblank (.inl rfl),
    next_of_keep hletter (by unfold Lexeme.IsSkipped; decide), ← hlx', hfirst, ← hlx]
  exact ⟨_, rfl, rfl, by decide⟩

/-- A token with a new line that is not at its end puts the tokens behind it wrong. -/
theorem not_always_right :
    ¬ ∀ (definitions : List TokenDefinition) (input : Text) (run : List Unit) (l : Lexeme)
      (token : Token),
      (calls.after (started none definitions input) run).next.1.found = some l →
      (calls.after (started none definitions input) run).next.1.result = .ok token →
      1 + newlines (input.take l.start) < 2 ^ 32 → RightPosition input l token := by
  intro h
  obtain ⟨token, hfound, hresult, hcolumn⟩ := letter_behind_comment
  have hright := (h _ _ _ _ _ hfound hresult (by decide)).column (by decide)
  rw [hcolumn] at hright
  exact absurd hright (by decide)

/-- The new line and the letter of the input new line, `a`. -/
def newlineLexeme : Lexeme := ⟨0, newline, ⟨0, 1, none⟩, [10]⟩
def secondLexeme : Lexeme := ⟨1, letter, ⟨0, 1, none⟩, [97]⟩

/-- Behind a new line of its own the letter is where its token says. -/
theorem letter_behind_newline :
    ∃ token, (started none [letter] [10, 97]).next.1.result = .ok token ∧
      RightPosition [10, 97] secondLexeme token := by
  have hnewline : (started none [letter] [10, 97]).search = some newlineLexeme := rfl
  have hletter : ((started none [letter] [10, 97]).skip newlineLexeme).search =
      some secondLexeme := rfl
  have hnext := next_of_skip hnewline (.inr rfl)
  rw [next_of_keep hletter (by unfold Lexeme.IsSkipped; decide)] at hnext
  have hresult := congrArg (fun out => out.1.result) hnext
  have hfound := congrArg (fun out => out.1.found) hnext
  have hskipped : (started none [letter] [10, 97]).next.1.skipped = [newlineLexeme] :=
    congrArg (fun out => out.1.skipped) hnext
  refine ⟨_, hresult, @positions_right none (fun f hf => by cases hf) [letter] [10, 97] [] _ _
    hfound hresult (fun l hl _ => ?_) (by decide)⟩
  replace hl : l ∈ (started none [letter] [10, 97]).next.1.skipped := hl
  rw [hskipped] at hl
  obtain rfl := List.mem_singleton.mp hl
  unfold Tracked
  decide

end Acatl.Lexer
