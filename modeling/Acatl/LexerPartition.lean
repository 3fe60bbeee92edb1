/-
Acatl.LexerPartition — the lexer neither loses nor repeats input.

Every state keeps its input and its definitions (`Skips.same`, `next_same`), and the
lexemes of a call lie one behind the other from the position before it to the
position behind it (`next_consecutive`). So the lexemes of all calls since
`setInput` are the input up to the position (`lexer_partitions`); and as every
lexeme is at least one character long, no more calls return a token than there are
characters (`pos_ge_or_ended`).
-/
import Acatl.Lexer

namespace Acatl.Lexer

/-! ## §1 One behind the other -/

/-- The lexemes fill the input from one position to another. -/
def Consecutive : Nat → List Lexeme → Nat → Prop
  | a, [], b => a = b
  | a, l :: ls, b => l.start = a ∧ Consecutive (a + l.text.length) ls b

theorem consecutive_append {ls ls' : List Lexeme} : ∀ {a b c : Nat},
    Consecutive a ls b → Consecutive b ls' c → Consecutive a (ls ++ ls') c := by
  induction ls with
  | nil =>
    rintro a b c rfl h'
    exact h'
  | cons l ls ih =>
    rintro a b c ⟨hstart, h⟩ h'
    exact ⟨hstart, ih h h'⟩

theorem consecutive_single {a : Nat} {l : Lexeme} (h : l.start = a) :
    Consecutive a [l] (a + l.text.length) :=
  ⟨h, rfl⟩

/-- Their texts are what is there. -/
theorem texts_eq {definitions : List TokenDefinition} {input : Text} :
    ∀ {ls : List Lexeme} {a b : Nat}, Consecutive a ls b →
      (∀ l ∈ ls, FirstMatch definitions input l) → a ≤ input.length →
      b ≤ input.length ∧ (input.take a) ++ (ls.map Lexeme.text).flatten = input.take b
  | [], a, b, h, _, ha => by
    obtain rfl : a = b := h
    exact ⟨ha, List.append_nil _⟩
  | l :: ls, a, b, h, hfirst, _ => by
    obtain ⟨rfl, hrest⟩ := h
    have hl := hfirst l (by simp)
    have hle := hl.length_le
    have hlen := hl.length_text
    obtain ⟨hb, htexts⟩ := texts_eq hrest (fun l' hl' => hfirst l' (by simp [hl'])) (by omega)
    refine ⟨hb, ?_⟩
    rw [← htexts, hlen, List.take_add, ← hl.text, List.append_assoc]
    rfl

theorem le_of_consecutive : ∀ {ls : List Lexeme} {a b : Nat}, Consecutive a ls b → a ≤ b
  | [], _, _, h => Nat.le_of_eq h
  | _ :: _, _, _, ⟨_, hrest⟩ => Nat.le_trans (Nat.le_add_right _ _) (le_of_consecutive hrest)

/-! ## §2 One call -/

section

variable {lx last : Lexer}

/-- What a call does not change. -/
structure Same (lx after : Lexer) : Prop where
  definitions : after.definitions = lx.definitions
  callback : after.callback = lx.callback
  input : after.input = lx.input

theorem Same.trans {a b c : Lexer} (h : Same a b) (h' : Same b c) : Same a c :=
  ⟨h'.1.trans h.1, h'.2.trans h.2, h'.3.trans h.3⟩

theorem skip_same (lx : Lexer) (l : Lexeme) : Same lx (lx.skip l) := by
  rw [skip]
  split <;> exact ⟨rfl, rfl, rfl⟩

theorem skip_pos (lx : Lexer) (l : Lexeme) : (lx.skip l).pos = lx.pos + l.found.length := by
  rw [skip]
  split <;> rfl

theorem Skips.same {ls : List Lexeme} (h : Skips lx ls last) : Same lx last := by
  induction h with
  | nil lx => exact ⟨rfl, rfl, rfl⟩
  | cons _ _ _ ih => exact (skip_same _ _).trans ih

theorem Skips.consecutive {ls : List Lexeme} (h : Skips lx ls last) :
    Consecutive lx.pos ls last.pos := by
  induction h with
  | nil lx => rfl
  | cons hsearch _ _ ih =>
    obtain ⟨hstart, hfirst⟩ := search_eq_some hsearch
    rw [skip_pos, ← hfirst.length_text] at ih
    exact ⟨hstart, ih⟩

theorem Skips.first {ls : List Lexeme} (h : Skips lx ls last) :
    ∀ l ∈ ls, FirstMatch lx.definitions lx.input l := by
  induction h with
  | nil => simp
  | @cons lx _ l _ hsearch _ _ ih =>
    rw [(skip_same lx l).definitions, (skip_same lx l).input] at ih
    exact List.forall_mem_cons.mpr ⟨(search_eq_some hsearch).2, ih⟩

theorem Skips.inspected {ls : List Lexeme} (h : Skips lx ls last) :
    last.inspected = lx.inspected := by
  induction h with
  | nil lx => rfl
  | @cons lx _ l _ _ _ _ ih =>
    rw [ih, skip]
    split <;> rfl

theorem inspect_same (lx : Lexer) (token : Token) : Same lx (lx.inspect token).2 := by
  rw [inspect]
  split <;> exact ⟨rfl, rfl, rfl⟩

theorem inspect_pos (lx : Lexer) (token : Token) : (lx.inspect token).2.pos = lx.pos := by
  rw [inspect]
  split <;> rfl

/-- What the callback makes of a token depends on nothing but the calls before. -/
theorem inspect_congr {a b : Lexer} (hcallback : a.callback = b.callback)
    (hinspected : a.inspected = b.inspected) (token : Token) :
    (a.inspect token).1 = (b.inspect token).1 := by
  rw [inspect, inspect, hcallback, hinspected]
  split <;> rfl

theorem keep_same (lx : Lexer) (l : Lexeme) : Same lx (lx.keep l) := by
  rw [keep, countNewlines_eq]
  exact ⟨rfl, rfl, rfl⟩

theorem keep_pos (lx : Lexer) (l : Lexeme) : (lx.keep l).pos = lx.pos + l.found.length := by
  rw [keep, countNewlines_eq]
  rfl

theorem keep_inspected (lx : Lexer) (l : Lexeme) : (lx.keep l).inspected = lx.inspected := by
  rw [keep, countNewlines_eq]
  rfl

end

theorem next_same (lx : Lexer) : Same lx lx.next.2 := by
  obtain ⟨skipped, last, hskips, hends⟩ := next_spec lx
  generalize lx.next = out at hends
  cases hends with
  | endOfInput => exact hskips.same
  | exception => exact hskips.same
  | @token l => exact hskips.same.trans ((keep_same last l).trans (inspect_same _ _))

/-- The lexemes of a call, from the position before it to the position behind it. -/
theorem next_consecutive (lx : Lexer) :
    Consecutive lx.pos lx.next.1.lexemes lx.next.2.pos := by
  obtain ⟨skipped, last, hskips, hends⟩ := next_spec lx
  generalize lx.next = out at hends
  cases hends with
  | endOfInput =>
    rw [Call.lexemes, Option.toList_none, List.append_nil]
    exact hskips.consecutive
  | exception =>
    rw [Call.lexemes, Option.toList_none, List.append_nil]
    exact hskips.consecutive
  | @token l hsearch hkept =>
    obtain ⟨hstart, hfirst⟩ := search_eq_some hsearch
    rw [inspect_pos, keep_pos, ← hfirst.length_text]
    exact consecutive_append hskips.consecutive (consecutive_single hstart)

theorem next_first (lx : Lexer) :
    ∀ l ∈ lx.next.1.lexemes, FirstMatch lx.definitions lx.input l := by
  obtain ⟨skipped, last, hskips, hends⟩ := next_spec lx
  generalize lx.next = out at hends
  cases hends with
  | endOfInput =>
    rw [Call.lexemes, Option.toList_none, List.append_nil]
    exact hskips.first
  | exception =>
    rw [Call.lexemes, Option.toList_none, List.append_nil]
    exact hskips.first
  | @token l hsearch hkept =>
    have hl := (search_eq_some hsearch).2
    rw [hskips.same.definitions, hskips.same.input] at hl
    rw [Call.lexemes, Option.toList_some]
    exact List.forall_mem_append.mpr ⟨hskips.first, List.forall_mem_singleton.mpr hl⟩

/-- The end of the input, or the exception. -/
def Ended (call : Call) : Prop := call.result = .ok endOfInput ∨ ∃ e, call.result = .error e

/-- The token of a match that is returned, as the callback leaves it. -/
structure Returns (lx : Lexer) (call : Call) (l : Lexeme) : Prop where
  found : call.found = some l
  first : FirstMatch lx.definitions lx.input l
  result : ∃ token : Token, token.name = l.definition.name ∧ token.token = l.definition.token ∧
    token.value = l.value ∧ call.result = .ok (lx.inspect token).1

/-- A call ends the input, or returns what it has found and moves on. -/
theorem next_answers (lx : Lexer) :
    lx.next.1.found = none ∧ Ended lx.next.1 ∨
      ∃ l, Returns lx lx.next.1 l ∧ lx.pos < lx.next.2.pos := by
  have hfirst := next_first lx
  have hconsecutive := next_consecutive lx
  obtain ⟨skipped, last, hskips, hends⟩ := next_spec lx
  generalize lx.next = out at hends hfirst hconsecutive
  cases hends with
  | endOfInput => exact .inl ⟨rfl, .inl rfl⟩
  | exception => exact .inl ⟨rfl, .inr ⟨_, rfl⟩⟩
  | @token l hsearch hkept =>
    have hl : FirstMatch lx.definitions lx.input l := hfirst l (by simp [Call.lexemes])
    refine .inr ⟨l, ⟨rfl, hl, last.token l, rfl, rfl, rfl, ?_⟩, ?_⟩
    · have hcallback := (keep_same last l).callback.trans hskips.same.callback
      have hinspected := (keep_inspected last l).trans hskips.inspected
      rw [inspect_congr hcallback hinspected]
    · have hle := le_of_consecutive hskips.consecutive
      have hpos := hl.length_pos
      rw [inspect_pos, keep_pos]
      omega

/-! ## §3 All calls since `setInput` -/

/-- What some calls have consumed. -/
def lexemes (lx : Lexer) (run : List Unit) : List Lexeme :=
  (calls.outputs lx run).flatMap Call.lexemes

section

variable (lx : Lexer) (run : List Unit)

theorem after_same : Same lx (calls.after lx run) :=
  Lib.Machine.inv_after (Same lx) (fun s _ h => h.trans (next_same s)) ⟨rfl, rfl, rfl⟩ run

theorem run_consecutive : Consecutive lx.pos (lx.lexemes run) (calls.after lx run).pos := by
  induction run generalizing lx with
  | nil => rfl
  | cons i is ih => exact consecutive_append (next_consecutive lx) (ih _)

theorem run_first : ∀ l ∈ lx.lexemes run, FirstMatch lx.definitions lx.input l := by
  intro l hl
  obtain ⟨call, hcall, hl⟩ := List.mem_flatMap.mp hl
  refine Lib.Machine.forall_outputs (Same lx)
    (P := fun call => ∀ l ∈ call.lexemes, FirstMatch lx.definitions lx.input l)
    (fun s _ hs => ⟨?_, hs.trans (next_same s)⟩) ⟨rfl, rfl, rfl⟩ run call hcall l hl
  have hfirst := next_first s
  rwa [hs.definitions, hs.input] at hfirst

/-- As many calls as characters, or one that has ended. -/
theorem pos_ge_or_ended :
    (∃ call ∈ calls.outputs lx run, Ended call) ∨
      lx.pos + run.length ≤ (calls.after lx run).pos := by
  induction run generalizing lx with
  | nil => exact .inr (Nat.le_refl _)
  | cons i is ih =>
    rcases next_answers lx with ⟨-, hended⟩ | ⟨l, -, hlt⟩
    · exact .inl ⟨_, List.mem_cons_self, hended⟩
    · rcases ih lx.next.2 with ⟨call, hcall, hended⟩ | hle
      · exact .inl ⟨call, List.mem_cons_of_mem _ hcall, hended⟩
      · right
        rw [Lib.Machine.after_cons, List.length_cons]
        exact Nat.le_trans (by omega) hle

end

/-- The lexemes of all calls are consecutive and make up the input that is behind the
position, every one is the match of the first definition that is found where it
starts, every call ends the input or returns one of them and moves on, and of one call
more than there are characters some call has ended the input. -/
structure Partitions (lx : Lexer) : Prop where
  consecutive : ∀ run, Consecutive 0 (lx.lexemes run) (calls.after lx run).pos
  texts : ∀ run, ((lx.lexemes run).map Lexeme.text).flatten =
    lx.input.take (calls.after lx run).pos
  first : ∀ run, ∀ l ∈ lx.lexemes run, FirstMatch lx.definitions lx.input l
  answers : ∀ run, Ended (calls.after lx run).next.1 ∨
    ∃ l, Returns (calls.after lx run) (calls.after lx run).next.1 l ∧
      (calls.after lx run).pos < (calls.after lx run).next.2.pos
  ends : ∃ call ∈ calls.outputs lx (List.replicate (lx.input.length + 1) ()), Ended call

/-- **The lexer neither loses nor repeats input**, whatever its definitions are. -/
theorem lexer_partitions (lexer : Lexer) (input : Text) : Partitions (lexer.setInput input) := by
  generalize hlx : lexer.setInput input = lx
  have hstart : lx.pos = 0 := hlx ▸ rfl
  have hconsecutive : ∀ run, Consecutive 0 (lx.lexemes run) (calls.after lx run).pos :=
    fun run => hstart ▸ run_consecutive lx run
  have htexts := fun run => texts_eq (hconsecutive run) (run_first lx run) (Nat.zero_le _)
  refine ⟨hconsecutive, fun run => (htexts run).2, run_first lx, fun run => ?_, ?_⟩
  · rcases next_answers (calls.after lx run) with ⟨-, hended⟩ | hreturns
    · exact .inl hended
    · exact .inr hreturns
  · have hended := pos_ge_or_ended lx (List.replicate (lx.input.length + 1) ())
    refine hended.resolve_right fun hle => ?_
    have hinside := (htexts (List.replicate (lx.input.length + 1) ())).1
    rw [List.length_replicate] at hle
    omega

end Acatl.Lexer
