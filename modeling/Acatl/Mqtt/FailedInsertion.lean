/-
Acatl.Mqtt.FailedInsertion — what is left of an `addFilter` that fails.

`addFilter` fails at a node for `"#"` that is not the last one of the filter. By
then it has created the nodes on the way to it that were not there, this one
included, and they stay: `dump` prints a line for each, and `match` may end at
them.

  `addLevels_stopped`       nothing changes if there is a node for that `"#"`.
  `length_dump_stopped`     the dump gets longer if there is none.
  `failed_addFilter_iff`    so a failed call changes nothing just in the first
                            case.
-/
import Acatl.Lib.Machine
import Acatl.Mqtt.TreeContents
import Mathlib.Data.List.TakeWhile

namespace Acatl.Mqtt

open Acatl.Lib

variable {σ : Type}

/-! ## §1 The nodes of a map -/

namespace NodeMap

/-- Storing the node that is there changes nothing. -/
theorem insert_find? {k : Bytes} {n : SubscriptionNode σ} : ∀ {nodes : NodeMap σ},
    nodes.find? k = some n → nodes.insert k n = nodes
  | .nil, h => by simp [find?] at h
  | .cons key node rest, h => by
    rw [find?] at h
    rw [insert]
    split at h
    · rw [if_pos ‹_›, Option.some.inj h]
    · rw [if_neg ‹_›, insert_find? h]

variable [DecidableEq σ] (clientIds : Finset σ → List Bytes)

/-- How long the dump of a map gets. -/
theorem length_dump_insert (k : Bytes) (new : SubscriptionNode σ) (indent : Nat) :
    ∀ nodes : NodeMap σ,
      ((nodes.insert k new).dump clientIds indent).length +
          ((nodes.find? k).elim 0 fun old => (old.dump clientIds indent).length) =
        (nodes.dump clientIds indent).length + (new.dump clientIds indent).length
  | .nil => by simp [insert, find?, dump]
  | .cons key node rest => by
    have ih := length_dump_insert k new indent rest
    rw [insert, find?]
    split
    · simp only [dump, List.length_append, Option.elim_some]
      omega
    · simp only [dump, List.length_append]
      omega

end NodeMap

/-! ## §2 The nodes on the way -/

namespace SubscriptionNode

variable [DecidableEq σ]

theorem length_dumpLine_pos (clientIds : Finset σ → List Bytes) (indent : Nat) (level : Bytes)
    (s : Finset σ) : 0 < (dumpLine clientIds indent level s).length := by
  simp only [dumpLine, List.length_append, List.length_singleton]
  omega

/-- A node but the root has a line. -/
theorem length_dump_pos (clientIds : Finset σ → List Bytes) {n : SubscriptionNode σ}
    (h : ∀ s nodes, n ≠ .intermediate .root s nodes) (indent : Nat) :
    0 < (n.dump clientIds indent).length := by
  cases n with
  | multiLevelWildCard s => exact length_dumpLine_pos clientIds indent hashLevel s
  | intermediate kind s nodes =>
    cases kind with
    | root => exact absurd rfl (h s nodes)
    | topic name =>
      have hline := length_dumpLine_pos clientIds indent name s
      rw [dump, List.length_append]
      omega
    | singleLevelWildCard =>
      have hline := length_dumpLine_pos clientIds indent plusLevel s
      rw [dump, List.length_append]
      omega

/-- The dump of an inner node, as far as its children go. -/
theorem length_dump_lt (clientIds : Finset σ → List Bytes) {kind : NodeKind} {s : Finset σ}
    {nodes nodes' : NodeMap σ}
    (h : ∀ indent, (nodes.dump clientIds indent).length < (nodes'.dump clientIds indent).length)
    (indent : Nat) : ((intermediate kind s nodes).dump clientIds indent).length <
      ((intermediate kind s nodes').dump clientIds indent).length := by
  cases kind with
  | root => simpa [dump] using h indent
  | topic name => simpa [dump] using h (indent + 2)
  | singleLevelWildCard => simpa [dump] using h (indent + 2)

theorem addLevels_ne_root (x : σ) (l : Bytes) (ls : List Bytes) (s : Finset σ) (nodes : NodeMap σ) :
    (create l : SubscriptionNode σ).addLevels x ls ≠ .intermediate .root s nodes := by
  unfold create
  split
  · cases ls <;> simp [SubscriptionNode.addLevels]
  · split <;> cases ls <;> simp [SubscriptionNode.addLevels]

/-- The node for a `"#"` takes no further levels. -/
theorem Shaped.addLevels_hash {kind : NodeKind} {s : Finset σ} {nodes : NodeMap σ}
    (h : Shaped (.intermediate kind s nodes)) {n : SubscriptionNode σ}
    (hn : nodes.find? hashLevel = some n) (x : σ) {v : List Bytes} (hv : v ≠ []) :
    n.addLevels x v = n := by
  have hmulti := (h.isMulti_iff hn).mpr rfl
  cases n with
  | intermediate _ _ _ => simp at hmulti
  | multiLevelWildCard s' =>
    cases v with
    | nil => exact absurd rfl hv
    | cons _ _ => rfl

/-- **With a node for the `"#"` nothing changes.** -/
theorem addLevels_stopped (x : σ) {v : List Bytes} (hv : v ≠ []) (u : List Bytes) :
    ∀ {n : SubscriptionNode σ}, Shaped n → (n.nodeAt (u ++ [hashLevel])).isSome = true →
      n.addLevels x (u ++ hashLevel :: v) = n := by
  induction u with
  | nil =>
    intro n hn hnode
    cases n with
    | multiLevelWildCard s => rfl
    | intermediate kind s nodes =>
      obtain ⟨c, hc, -⟩ := nodeAt_cons_isSome.mp hnode
      rw [List.nil_append, SubscriptionNode.addLevels, hc, Option.getD_some,
        hn.addLevels_hash hc x hv, NodeMap.insert_find? hc]
  | cons l u ih =>
    intro n hn hnode
    cases n with
    | multiLevelWildCard s => rfl
    | intermediate kind s nodes =>
      obtain ⟨c, hc, hbelow⟩ := nodeAt_cons_isSome.mp hnode
      rw [List.cons_append, SubscriptionNode.addLevels, hc, Option.getD_some,
        ih (hn.child hc) hbelow, NodeMap.insert_find? hc]

/-- **Without one there is more to dump.** -/
theorem length_dump_stopped (clientIds : Finset σ → List Bytes) (x : σ) (v : List Bytes)
    {u : List Bytes} (hu : hashLevel ∉ u) :
    ∀ {n : SubscriptionNode σ}, Shaped n → n.isMulti = false →
      n.nodeAt (u ++ [hashLevel]) = none → ∀ indent,
      (n.dump clientIds indent).length <
        ((n.addLevels x (u ++ hashLevel :: v)).dump clientIds indent).length := by
  induction u with
  | nil =>
    intro n hn hinner hnode
    cases n with
    | multiLevelWildCard s => simp at hinner
    | intermediate kind s nodes =>
      have hnone : nodes.find? hashLevel = none := by simpa [nodeAt_cons] using hnode
      refine length_dump_lt clientIds fun indent => ?_
      have hlength := NodeMap.length_dump_insert clientIds hashLevel
        ((create hashLevel).addLevels x v) indent nodes
      have hline := length_dump_pos clientIds (addLevels_ne_root x hashLevel v) indent
      rw [hnone, Option.elim_none] at hlength
      rw [hnone, Option.getD_none]
      omega
  | cons l u ih =>
    intro n hn hinner hnode
    cases n with
    | multiLevelWildCard s => simp at hinner
    | intermediate kind s nodes =>
      refine length_dump_lt clientIds fun indent => ?_
      have hlength := NodeMap.length_dump_insert clientIds l
        ((((nodes.find? l).getD (create l))).addLevels x (u ++ hashLevel :: v)) indent nodes
      show (nodes.dump clientIds indent).length <
        ((nodes.insert l (((nodes.find? l).getD (create l)).addLevels x
          (u ++ hashLevel :: v))).dump clientIds indent).length
      cases hc : nodes.find? l with
      | none =>
        have hline := length_dump_pos clientIds (addLevels_ne_root x l (u ++ hashLevel :: v)) indent
        rw [hc, Option.elim_none, Option.getD_none] at hlength
        rw [Option.getD_none]
        omega
      | some c =>
        have hl : l ≠ hashLevel := fun heq => hu (by simp [heq])
        have hbelow : c.nodeAt (u ++ [hashLevel]) = none := by
          rwa [List.cons_append, nodeAt_cons_some hc] at hnode
        have hmore :=
          ih (fun h => hu (by simp [h])) (hn.child hc) (hn.not_multi hc hl) hbelow indent
        rw [hc, Option.elim_some, Option.getD_some] at hlength
        rw [Option.getD_some]
        omega

end SubscriptionNode

/-! ## §3 Calls with any filters -/

/-- The levels of a filter up to the first `"#"`, with it. -/
def TopicFilter.upToHash (f : TopicFilter) : List Bytes :=
  f.levels.takeWhile (· ≠ hashLevel) ++ [hashLevel]

theorem hash_notMem_upTo (ls : List Bytes) : hashLevel ∉ ls.takeWhile (· ≠ hashLevel) := by
  intro h
  simpa using List.mem_takeWhile_imp h

/-- Levels with a `"#"` in front of others have a first one. -/
theorem exists_of_not_hashLast {ls : List Bytes} (h : ¬ HashLast ls) :
    ∃ v, v ≠ [] ∧ ls = ls.takeWhile (· ≠ hashLevel) ++ hashLevel :: v := by
  have hfirst : ls.dropWhile (· ≠ hashLevel) ≠ [] := by
    intro hnil
    refine h fun u v e => ?_
    have hall := List.dropWhile_eq_nil_iff.mp hnil hashLevel (by simp [e])
    simp at hall
  obtain ⟨l, v, hv⟩ := List.exists_cons_of_ne_nil hfirst
  have hl : l = hashLevel := by
    have hhead := List.head?_dropWhile_not (· ≠ hashLevel) ls
    rw [hv] at hhead
    simpa using hhead
  have hcut : ls = ls.takeWhile (· ≠ hashLevel) ++ hashLevel :: v := by
    conv_lhs => rw [← List.takeWhile_append_dropWhile (p := (· ≠ hashLevel)) (l := ls), hv, hl]
  refine ⟨v, fun hnil => h fun u w e => ?_, hcut⟩
  -- the first one would be the last one
  rw [hcut, hnil] at e
  have hparts := (List.append_cons_inj_of_notMem (hash_notMem_upTo ls) List.not_mem_nil).mp e
  exact hparts.2.2.symm

section

variable [DecidableEq σ]

/-- `addFilter`, with any filter: what it returns, and the error code after
it. -/
def attempts : Machine (SubscriptionTree σ) (TopicFilter × σ × ErrorCode) (Bool × ErrorCode) :=
  fun tree call =>
    let (added, ec, written) := tree.addFilter call.1 call.2.1 call.2.2
    ((added, ec), written)

/-- The shape of the tree after any calls. -/
theorem shaped_attempts (calls : List (TopicFilter × σ × ErrorCode)) :
    (attempts.after .new calls).rootNode.Shaped ∧
      (attempts.after .new calls).rootNode.isMulti = false := by
  induction calls using List.reverseRecOn with
  | nil => exact ⟨grown_new.shaped, grown_new.inner⟩
  | append_singleton calls call ih =>
    obtain ⟨added, hadd, -⟩ := SubscriptionTree.addFilter_eq ih.1 ih.2 call.1 call.2.1 call.2.2
    rw [Machine.after_append, Machine.after_cons, Machine.after_nil, attempts, hadd]
    exact ⟨ih.1.addLevels call.2.1, by rw [SubscriptionNode.isMulti_addLevels]; exact ih.2⟩

/-- The tree answers every `match` as before, and prints the same. -/
structure SubscriptionTree.Unchanged (clientIds : Finset σ → List Bytes)
    (before after : SubscriptionTree σ) : Prop where
  matches_same : ∀ topic, after.matchTopic topic ∅ = before.matchTopic topic ∅
  dump : ∀ indent, after.dump clientIds indent = before.dump clientIds indent

/-- **A failed `addFilter` changes nothing if and only if the tree has a node
for the `"#"` that it fails at.** -/
theorem failed_addFilter_iff (clientIds : Finset σ → List Bytes)
    (calls : List (TopicFilter × σ × ErrorCode)) (f : TopicFilter) (x : σ) (ec : ErrorCode)
    (hfail : ((attempts.after .new calls).addFilter f x ec).1 = false) :
    SubscriptionTree.Unchanged clientIds (attempts.after .new calls)
        ((attempts.after .new calls).addFilter f x ec).2.2 ↔
      ((attempts.after .new calls).rootNode.nodeAt f.upToHash).isSome = true := by
  obtain ⟨hshaped, hinner⟩ := shaped_attempts calls
  generalize attempts.after .new calls = tree at hfail hshaped hinner ⊢
  obtain ⟨added, hadd, hadded⟩ := SubscriptionTree.addFilter_eq hshaped hinner f x ec
  rw [hadd] at hfail ⊢
  have hlast : ¬ HashLast f.levels := by
    rw [← hadded, Bool.not_eq_true]
    exact hfail
  obtain ⟨v, hv, hcut⟩ := exists_of_not_hashLast hlast
  constructor
  · intro hsame
    by_contra hnode
    have hmore := SubscriptionNode.length_dump_stopped clientIds x v (hash_notMem_upTo f.levels)
      hshaped hinner (Option.not_isSome_iff_eq_none.mp hnode) 0
    rw [← hcut] at hmore
    exact Nat.lt_irrefl _ (hmore.trans_eq (congrArg List.length (hsame.dump 0)))
  · intro hnode
    have hsame := SubscriptionNode.addLevels_stopped x hv _ hshaped hnode
    rw [← hcut] at hsame
    simp only [hsame]
    exact ⟨fun _ => rfl, fun _ => rfl⟩

end

/-- The filter `a/#/b` where `a/#` has been added. -/
theorem failed_addFilter_iff_known :
    SubscriptionTree.Unchanged (fun _ => [])
        (attempts.after .new [(⟨[0x61, slash, hashSign], .atMostOnce⟩, 0, none)])
        ((attempts.after .new [(⟨[0x61, slash, hashSign], .atMostOnce⟩, 0, none)]).addFilter
          ⟨[0x61, slash, hashSign, slash, 0x62], .atMostOnce⟩ 1 none).2.2 ↔
      ((attempts.after .new [(⟨[0x61, slash, hashSign], .atMostOnce⟩, 0, none)]).rootNode.nodeAt
        (TopicFilter.upToHash ⟨[0x61, slash, hashSign, slash, 0x62], .atMostOnce⟩)).isSome = true :=
  failed_addFilter_iff (fun _ => []) _ _ 1 none (by decide)

/-- The filter `a/#/b` on an empty tree: `match` then ends at a node for the topic
`a`. -/
theorem failed_addFilter_leaves_nodes :
    ¬ ∀ (clientIds : Finset Nat → List Bytes) (calls : List (TopicFilter × Nat × ErrorCode))
      (f : TopicFilter) (x : Nat) (ec : ErrorCode),
      ((attempts.after .new calls).addFilter f x ec).1 = false →
      SubscriptionTree.Unchanged clientIds (attempts.after .new calls)
        ((attempts.after .new calls).addFilter f x ec).2.2 := by
  intro h
  have hsame := h (fun _ => []) [] ⟨[0x61, slash, hashSign, slash, 0x62], .atMostOnce⟩ 0 none
    (by decide)
  have hmatch := congrArg Prod.fst (hsame.matches_same ⟨[0x61]⟩)
  exact absurd hmatch (by decide)

end Acatl.Mqtt
