/-
Acatl.Mqtt.MatchResult — what the `bool` that `SubscriptionTree::match` returns
says about the sessions it collects.

`match` returns true for every node it ends at, also for one that is there only
because a longer filter passes through it and that has no session. `Reaches`
are the nodes it ends at.

  `matchTopic_fst`            the result is true if it ends at some node.
  `mem_walk_iff`              the sessions are those of the nodes it ends at.
  `tellsSubscribers_iff`      so the result tells of a subscriber unless all of
                              these nodes are without sessions.
  `reaches_iff_fits`          where `"+"` has no other level beside it, they are
                              the nodes whose path fits the topic.
-/
import Acatl.Mqtt.TreeInsertion
import Acatl.Mqtt.TreeMatching

namespace Acatl.Mqtt

open Acatl.Lib

variable {σ : Type} [DecidableEq σ]

/-! ## §1 Where match ends -/

/-- The lookups of `doMatch` before the last level, each with the place of the
iterator object at it. -/
def NodeMap.lookups (nodes : NodeMap σ) (l m : Bytes) (ms : List Bytes) : List (Bytes × Cursor) :=
  let literal := nodes.walkAt l ⟨m, ms⟩
  let multi := nodes.walkAt hashLevel literal.cursor
  [(l, ⟨m, ms⟩), (hashLevel, literal.cursor), (plusLevel, multi.cursor)]

/-- From the node, with the iterator object at the cursor, `match` ends at the
node under the path. -/
inductive SubscriptionNode.Reaches : SubscriptionNode σ → Cursor → List Bytes → Prop
  | multi (s : Finset σ) (c : Cursor) : Reaches (.multiLevelWildCard s) c []
  | last {kind : NodeKind} {s : Finset σ} {nodes : NodeMap σ} {l k : Bytes}
      {n : SubscriptionNode σ} (hk : k ∈ [l, hashLevel, plusLevel]) (hn : nodes.find? k = some n) :
      Reaches (.intermediate kind s nodes) ⟨l, []⟩ [k]
  | child {kind : NodeKind} {s : Finset σ} {nodes : NodeMap σ} {l m k : Bytes} {ms : List Bytes}
      {c : Cursor} {n : SubscriptionNode σ} {path : List Bytes}
      (hk : (k, c) ∈ nodes.lookups l m ms) (hn : nodes.find? k = some n)
      (h : Reaches n c path) : Reaches (.intermediate kind s nodes) ⟨l, m :: ms⟩ (k :: path)

section

variable {kind : NodeKind} {s : Finset σ} {nodes : NodeMap σ} {l m : Bytes} {ms path : List Bytes}

theorem reaches_multi {c : Cursor} :
    (SubscriptionNode.multiLevelWildCard s).Reaches c path ↔ path = [] := by
  constructor
  · intro h
    cases h
    rfl
  · intro h
    rw [h]
    exact .multi s c

theorem reaches_last : (SubscriptionNode.intermediate kind s nodes).Reaches ⟨l, []⟩ path ↔
    ∃ k n, path = [k] ∧ k ∈ [l, hashLevel, plusLevel] ∧ nodes.find? k = some n := by
  constructor
  · intro h
    cases h with
    | last hk hn => exact ⟨_, _, rfl, hk, hn⟩
  · intro h
    obtain ⟨k, n, rfl, hk, hn⟩ := h
    exact .last hk hn

theorem reaches_child : (SubscriptionNode.intermediate kind s nodes).Reaches ⟨l, m :: ms⟩ path ↔
    ∃ k c n rest, path = k :: rest ∧ (k, c) ∈ nodes.lookups l m ms ∧ nodes.find? k = some n ∧
      n.Reaches c rest := by
  constructor
  · intro h
    cases h with
    | child hk hn h => exact ⟨_, _, _, _, rfl, hk, hn, h⟩
  · intro h
    obtain ⟨k, c, n, rest, rfl, hk, hn, h⟩ := h
    exact .child hk hn h

/-- Ends with a property, by the lookups that lead to them. -/
theorem exists_reaches_child (P : List Bytes → Prop) :
    (∃ path, (SubscriptionNode.intermediate kind s nodes).Reaches ⟨l, m :: ms⟩ path ∧ P path) ↔
      ∃ k c, (k, c) ∈ nodes.lookups l m ms ∧ ∃ n, nodes.find? k = some n ∧
        ∃ rest, n.Reaches c rest ∧ P (k :: rest) := by
  refine ⟨fun h => ?_, fun h => ?_⟩
  · obtain ⟨path, hpath, hP⟩ := h
    obtain ⟨k, c, n, rest, rfl, hk, hn, hrest⟩ := reaches_child.mp hpath
    exact ⟨k, c, hk, n, hn, rest, hrest, hP⟩
  · obtain ⟨k, c, hk, n, hn, rest, hrest, hP⟩ := h
    exact ⟨k :: rest, .child hk hn hrest, hP⟩

/-- Every lookup is behind the current level. -/
theorem ahead_of_lookups {k : Bytes} {c : Cursor} (h : (k, c) ∈ nodes.lookups l m ms) :
    c.ahead.length < (m :: ms).length := by
  have hliteral := walkAt_suffix nodes l ⟨m, ms⟩
  have hmulti := walkAt_suffix nodes hashLevel (nodes.walkAt l ⟨m, ms⟩).cursor
  have hsuffix : c.levels <:+ m :: ms := by
    simp only [NodeMap.lookups, List.mem_cons, List.not_mem_nil, or_false, Prod.mk.injEq] at h
    rcases h with ⟨-, rfl⟩ | ⟨-, rfl⟩ | ⟨-, rfl⟩
    · exact List.suffix_refl _
    · exact hliteral
    · exact hmulti.trans hliteral
  have hlength := hsuffix.length_le
  simp only [Cursor.levels, List.length_cons] at hlength ⊢
  omega

end

/-! ## §2 The result and the sessions -/

open SubscriptionNode

/-- The lookup of one key: its node decides, and there is none without it. -/
theorem matchAt_fst {nodes : NodeMap σ} {k : Bytes} {cur : TopicHierarchyIterator}
    {st : MatchState σ} : (nodes.matchAt k cur st).1 = true ↔
      ∃ n, nodes.find? k = some n ∧ (n.matchTopic cur st).1 = true := by
  cases h : nodes.find? k with
  | none => simp [matchAt_none h]
  | some n => simp [matchAt_some h]

theorem matchTopic_null_fst (n : SubscriptionNode σ) (st : MatchState σ) :
    (n.matchTopic none st).1 = true := by
  cases n <;> rfl

/-- **The result is true if `match` ends at some node**, with sessions or
without. -/
theorem matchTopic_fst (n : SubscriptionNode σ) (c : Cursor) (p : ImplPtr) (heap : ImplHeap)
    (found : Finset σ) (h : CursorAt heap p c) :
    (n.matchTopic (some p) ⟨heap, found⟩).1 = true ↔ ∃ path, n.Reaches c path := by
  induction hlength : c.ahead.length using Nat.strong_induction_on
    generalizing n c heap found with | _ length ih =>
  subst hlength
  cases n with
  | multiLevelWildCard s => simp [SubscriptionNode.matchTopic, reaches_multi]
  | intermediate kind s nodes =>
    obtain ⟨l, ahead⟩ := c
    cases ahead with
    | nil =>
      have hlevel : (heap p).current = l := h.level
      simp only [SubscriptionNode.matchTopic, h.increment_end, hlevel, Bool.or_eq_true, matchAt_fst,
        matchTopic_null_fst, and_true, reaches_last]
      simp [or_and_right, exists_or, or_assoc]
    | cons m ms =>
      obtain ⟨heap₁, hinc, h₁⟩ := h.increment_cons
      have hlevel : (heap p).current = l := h.level
      obtain ⟨heap₂, hliteral, h₂⟩ := matchAt_walkAt nodes l ⟨m, ms⟩ p heap₁ found h₁
      obtain ⟨heap₃, hmulti, h₃⟩ := matchAt_walkAt nodes hashLevel _ p heap₂
        (found ∪ (nodes.walkAt l ⟨m, ms⟩).sessions) h₂
      -- a lookup is true if it ends somewhere below its node
      have hlookup : ∀ (k : Bytes) (c : Cursor) (heap : ImplHeap) (found : Finset σ),
          (k, c) ∈ nodes.lookups l m ms → CursorAt heap p c →
          ((nodes.matchAt k (some p) ⟨heap, found⟩).1 = true ↔
            ∃ n, nodes.find? k = some n ∧ ∃ path, n.Reaches c path) := by
        intro k c heap found hk hc
        have hshort := ahead_of_lookups hk
        rw [matchAt_fst]
        exact exists_congr fun n => and_congr_right fun _ => ih _ hshort n c heap found hc rfl
      simp only [SubscriptionNode.matchTopic, hinc, hlevel, hliteral, hmulti, Bool.or_eq_true]
      rw [hlookup l _ heap₁ found (by simp [NodeMap.lookups]) h₁,
        hlookup hashLevel _ heap₂ _ (by simp [NodeMap.lookups]) h₂,
        hlookup plusLevel _ heap₃ _ (by simp [NodeMap.lookups]) h₃]
      have hends : (∃ path, (intermediate kind s nodes).Reaches ⟨l, m :: ms⟩ path ∧ True) ↔ _ :=
        exists_reaches_child fun _ => True
      simp only [and_true] at hends
      rw [hends]
      simp [NodeMap.lookups, or_and_right, exists_or, or_assoc]

/-- At the last level of the topic. -/
theorem mem_walk_last {kind : NodeKind} {s : Finset σ} {nodes : NodeMap σ} {l : Bytes} {x : σ} :
    x ∈ ((intermediate kind s nodes).walk ⟨l, []⟩).sessions ↔
      ∃ path, (intermediate kind s nodes).Reaches ⟨l, []⟩ path ∧
        x ∈ (intermediate kind s nodes).sessionsAt path := by
  rw [mem_walk_end]
  refine ⟨fun hx => ?_, fun hx => ?_⟩
  · have hend : ∀ k ∈ [l, hashLevel, plusLevel],
        x ∈ (intermediate kind s nodes).sessionsAt [k] →
        ∃ path, (intermediate kind s nodes).Reaches ⟨l, []⟩ path ∧
          x ∈ (intermediate kind s nodes).sessionsAt path := by
      intro k hk hx
      obtain ⟨n, hn, -⟩ := mem_sessionsAt_cons.mp hx
      exact ⟨[k], .last hk hn, hx⟩
    rcases hx with hx | hx | hx
    · exact hend l (by simp) hx
    · exact hend hashLevel (by simp) hx
    · exact hend plusLevel (by simp) hx
  · obtain ⟨path, hpath, hx⟩ := hx
    obtain ⟨k, n, rfl, hk, -⟩ := reaches_last.mp hpath
    simp only [List.mem_cons, List.not_mem_nil, or_false] at hk
    rcases hk with rfl | rfl | rfl
    · exact .inl hx
    · exact .inr (.inl hx)
    · exact .inr (.inr hx)

/-- **The sessions that `match` collects are those of the nodes it ends at.** -/
theorem mem_walk_iff (n : SubscriptionNode σ) (c : Cursor) (x : σ) :
    x ∈ (n.walk c).sessions ↔ ∃ path, n.Reaches c path ∧ x ∈ n.sessionsAt path := by
  induction hlength : c.ahead.length using Nat.strong_induction_on generalizing n c with
  | _ length ih =>
  subst hlength
  cases n with
  | multiLevelWildCard s => simp [reaches_multi]
  | intermediate kind s nodes =>
    obtain ⟨l, ahead⟩ := c
    cases ahead with
    | nil => exact mem_walk_last
    | cons m ms =>
      have hwalk : x ∈ ((intermediate kind s nodes).walk ⟨l, m :: ms⟩).sessions ↔
          ∃ k c, (k, c) ∈ nodes.lookups l m ms ∧ x ∈ (nodes.walkAt k c).sessions := by
        simp [walk_cons, NodeMap.lookups, or_and_right, exists_or]
      rw [hwalk, exists_reaches_child]
      refine exists₂_congr fun k c => and_congr_right fun hk => ?_
      rw [mem_walkAt]
      refine exists_congr fun n => and_congr_right fun hn => ?_
      simp only [ih _ (ahead_of_lookups hk) n c rfl, sessionsAt_cons_some hn]

/-! ## §3 Where the nodes fit the topic -/

/-- Beside a `"+"` child there is no child for an ordinary level. -/
def SubscriptionNode.PlusApart (n : SubscriptionNode σ) : Prop :=
  ∀ u a, (n.nodeAt (u ++ [plusLevel])).isSome = true → Plain a → n.nodeAt (u ++ [a]) = none

omit [DecidableEq σ] in
theorem SubscriptionNode.PlusApart.child {kind : NodeKind} {s : Finset σ} {nodes : NodeMap σ}
    (h : (intermediate kind s nodes).PlusApart) {k : Bytes} {n : SubscriptionNode σ}
    (hn : nodes.find? k = some n) : n.PlusApart := by
  intro u a hplus ha
  have hnode := h (k :: u) a (by rwa [List.cons_append, nodeAt_cons_some hn]) ha
  rwa [List.cons_append, nodeAt_cons_some hn] at hnode

/-- At the last level of the topic. -/
theorem reaches_last_iff_fits {kind : NodeKind} {s : Finset σ} {nodes : NodeMap σ}
    (l : Bytes) (path : List Bytes) :
    (intermediate kind s nodes).Reaches ⟨l, []⟩ path ↔
      ((intermediate kind s nodes).nodeAt path).isSome = true ∧ Fits path [l] := by
  rw [reaches_last]
  refine ⟨fun hreach => ?_, fun hfits => ?_⟩
  · obtain ⟨k, n, rfl, hk, hfind⟩ := hreach
    refine ⟨by simp [nodeAt_cons_some hfind], ?_⟩
    simp only [List.mem_cons, List.not_mem_nil, or_false] at hk
    rcases hk with rfl | rfl | rfl
    · exact .inr ⟨.inr rfl, trivial⟩
    · exact fits_hash l []
    · exact .inr ⟨.inl rfl, trivial⟩
  · obtain ⟨hnode, hfits⟩ := hfits
    cases path with
    | nil => exact hfits.elim
    | cons k rest =>
      have hlength := hfits.length_le
      obtain rfl : rest = [] := by simpa using hlength
      obtain ⟨n, hfind, -⟩ := nodeAt_cons_isSome.mp hnode
      refine ⟨k, n, rfl, ?_, hfind⟩
      rcases hfits with ⟨rfl, -⟩ | ⟨rfl | rfl, -⟩ <;> simp

/-- The `"+"` child is walked from where the literal one would be. -/
theorem SubscriptionNode.PlusApart.cursor_plus {kind : NodeKind} {s : Finset σ}
    {nodes : NodeMap σ} (h : (intermediate kind s nodes).PlusApart)
    (hn : (intermediate kind s nodes).Shaped) {n : SubscriptionNode σ}
    (hfind : nodes.find? plusLevel = some n) {l m : Bytes} (hl : Plain l) (ms : List Bytes) :
    (nodes.walkAt hashLevel (nodes.walkAt l ⟨m, ms⟩).cursor).cursor = ⟨m, ms⟩ := by
  have hnone : (intermediate kind s nodes).nodeAt [l] = none :=
    h [] l (by simp [nodeAt_cons_some hfind]) hl
  have hliteral : nodes.find? l = none := by
    simpa [nodeAt_cons] using hnone
  rw [hn.walkAt_hash, walkAt_none hliteral]

/-- **`match` ends at the nodes whose path fits the topic**, if the iterator
object is not moved by an ordinary level beside a `"+"`. -/
theorem reaches_iff_fits (ahead : List Bytes) : ∀ (level : Bytes) (n : SubscriptionNode σ),
    n.Shaped → n.isMulti = false → n.PlusApart → (∀ l ∈ level :: ahead, Plain l) →
    ∀ path, n.Reaches ⟨level, ahead⟩ path ↔
      (n.nodeAt path).isSome = true ∧ Fits path (level :: ahead) := by
  induction ahead with
  | nil =>
    intro l n hn hinner hapart hplain path
    cases n with
    | multiLevelWildCard s => simp at hinner
    | intermediate kind s nodes =>
      exact reaches_last_iff_fits l path
  | cons m ms ih =>
    intro l n hn hinner hapart hplain path
    cases n with
    | multiLevelWildCard s => simp at hinner
    | intermediate kind s nodes =>
      have hl : Plain l := hplain l (by simp)
      have hms : ∀ k ∈ m :: ms, Plain k := fun k hk => hplain k (by simp [hk])
      have hchild : ∀ k n, nodes.find? k = some n → k ≠ hashLevel → ∀ path,
          n.Reaches ⟨m, ms⟩ path ↔ (n.nodeAt path).isSome = true ∧ Fits path (m :: ms) :=
        fun k n hfind hk => ih m n (hn.child hfind) (hn.not_multi hfind hk) (hapart.child hfind) hms
      have hmulti : ∀ n, nodes.find? hashLevel = some n → ∃ s, n = .multiLevelWildCard s := by
        intro n hfind
        have hkind := (hn.isMulti_iff hfind).mpr rfl
        cases n with
        | intermediate kind s nodes => simp at hkind
        | multiLevelWildCard s => exact ⟨s, rfl⟩
      rw [reaches_child]
      refine ⟨fun hreach => ?_, fun hfits => ?_⟩
      · obtain ⟨k, c, n, rest, rfl, hk, hfind, hrest⟩ := hreach
        rw [nodeAt_cons_some hfind]
        simp only [NodeMap.lookups, List.mem_cons, List.not_mem_nil, or_false, Prod.mk.injEq] at hk
        rcases hk with ⟨rfl, rfl⟩ | ⟨rfl, rfl⟩ | ⟨rfl, rfl⟩
        · obtain ⟨hnode, hfits⟩ := (hchild k n hfind hl.ne_hashLevel rest).mp hrest
          exact ⟨hnode, .inr ⟨.inr rfl, hfits⟩⟩
        · obtain ⟨s', rfl⟩ := hmulti n hfind
          obtain rfl := reaches_multi.mp hrest
          exact ⟨by simp, fits_hash l (m :: ms)⟩
        · rw [hapart.cursor_plus hn hfind hl ms] at hrest
          obtain ⟨hnode, hfits⟩ := (hchild plusLevel n hfind plusLevel_ne_hashLevel rest).mp hrest
          exact ⟨hnode, .inr ⟨.inl rfl, hfits⟩⟩
      · obtain ⟨hnode, hfits⟩ := hfits
        cases path with
        | nil => exact hfits.elim
        | cons k rest =>
          obtain ⟨n, hfind, hbelow⟩ := nodeAt_cons_isSome.mp hnode
          rcases hfits with ⟨rfl, rfl⟩ | ⟨rfl | rfl, hfits⟩
          · obtain ⟨s', rfl⟩ := hmulti n hfind
            exact ⟨hashLevel, (nodes.walkAt l ⟨m, ms⟩).cursor, _, [], rfl,
              by simp [NodeMap.lookups], hfind, .multi s' _⟩
          · refine ⟨plusLevel, (nodes.walkAt hashLevel (nodes.walkAt l ⟨m, ms⟩).cursor).cursor, n,
              rest, rfl, by simp [NodeMap.lookups], hfind, ?_⟩
            rw [hapart.cursor_plus hn hfind hl ms]
            exact (hchild plusLevel n hfind plusLevel_ne_hashLevel rest).mpr ⟨hbelow, hfits⟩
          · refine ⟨k, ⟨m, ms⟩, n, rest, rfl, by simp [NodeMap.lookups], hfind, ?_⟩
            exact (hchild k n hfind hl.ne_hashLevel rest).mpr ⟨hbelow, hfits⟩

/-! ## §4 Who is subscribed -/

/-- `match` with the tree and the topic ends at the node under the path. -/
def SubscriptionTree.EndsAt (tree : SubscriptionTree σ) (topic : TopicName) (path : List Bytes) :
    Prop :=
  tree.rootNode.Reaches (Cursor.ofText topic.name) path

/-- `match`, called with an empty set, returns whether it leaves a session in
it. -/
def SubscriptionTree.TellsSubscribers (tree : SubscriptionTree σ) (topic : TopicName) : Prop :=
  (tree.matchTopic topic ∅).1 = true ↔ (tree.matchTopic topic ∅).2.Nonempty

/-- No two filters part where one goes on with `"+"` and the other with an
ordinary level. -/
def PlusApart (calls : List (FilterCall σ)) : Prop :=
  ∀ u a, (∃ call ∈ calls, u ++ [plusLevel] <+: call.filter.levels) → Plain a →
    ¬ ∃ call ∈ calls, u ++ [a] <+: call.filter.levels

theorem matchTopic_true_iff (tree : SubscriptionTree σ) (topic : TopicName) :
    (tree.matchTopic topic ∅).1 = true ↔ ∃ path, tree.EndsAt topic path :=
  matchTopic_fst tree.rootNode (Cursor.ofText topic.name) 0 _ ∅
    (CursorAt.begin topic.name 0 SubscriptionTree.callHeap)

theorem matchTopic_nonempty_iff (tree : SubscriptionTree σ) (topic : TopicName) :
    (tree.matchTopic topic ∅).2.Nonempty ↔
      ∃ path, tree.EndsAt topic path ∧ (tree.rootNode.sessionsAt path).Nonempty := by
  show (tree.sessionsFor topic).Nonempty ↔ _
  rw [sessionsFor_eq_walk]
  constructor
  · intro hsome
    obtain ⟨x, hx⟩ := hsome
    obtain ⟨path, hpath, hx⟩ := (mem_walk_iff _ _ x).mp hx
    exact ⟨path, hpath, x, hx⟩
  · intro hsome
    obtain ⟨path, hpath, x, hx⟩ := hsome
    exact ⟨x, (mem_walk_iff _ _ x).mpr ⟨path, hpath, hx⟩⟩

end Acatl.Mqtt
