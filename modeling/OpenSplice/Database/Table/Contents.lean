import OpenSplice.Database.Table.Model
import OpenSplice.Library.NestedList

/-!
# The contents of a keyed table

The contents of a table are valid if every tree is ordered by its key values and no node has empty
contents (`Contents.Valid`). Valid contents are told by their entries, the objects with their tuples
of key values: a lookup finds exactly them (`mem_entries`), they are ordered lexicographically
(`ordered_entries`), and a walk goes along them (`walk_eq`). Insertion and removal keep the contents
valid, and only change what is found under the tuple of the object (`find_lookupInsert`,
`find_removeAt`).
-/

set_option autoImplicit false

namespace OpenSplice.Database

open Utilities Library KeyedList List Prod NestedList Contents Option

variable {κ ω σ ρ : Type} [LinearOrder κ]

omit [LinearOrder κ] in
lemma KeyTuple.eq_iff {n : ℕ} {keys keys' : KeyTuple κ (n + 1)} :
    keys' = keys ↔ keys'.head = keys.head ∧ keys'.tail = keys.tail :=
  Prod.ext_iff

namespace Contents

variable {n : ℕ} {c : Contents κ ω n} {tree : Contents κ ω (n + 1)}
  (access : Option ω → ρ × Option ω) {k : κ}

def Valid : (n : ℕ) → Contents κ ω n → Prop
  | 0, _ => True
  | n + 1, tree =>
    KeyedList.Ordered TableNode.keyValue (nodes tree) ∧
      ∀ node ∈ nodes tree, Valid n node.contents ∧ isEmpty n node.contents = false

omit [LinearOrder κ] in
def entries : (n : ℕ) → Contents κ ω n → List (KeyTuple κ n × ω)
  | 0, object => (Option.toList object).map fun o ↦ (KeyTuple.nil, o)
  | n + 1, tree =>
    NestedList.flatten TableNode.keyValue (fun node ↦ entries n node.contents) (nodes tree)

lemma valid_new (n : ℕ) : Valid n (new n : Contents κ ω n) := by
  cases n with
  | zero => trivial
  | succ => exact ⟨.nil, by simp [new, nodes]⟩

@[simp] lemma find_new (n : ℕ) (keys : KeyTuple κ n) :
    find n keys (new n : Contents κ ω n) = none := by
  cases n <;> rfl

lemma find_of_isEmpty (h : isEmpty n c) (keys : KeyTuple κ n) : find n keys c = none := by
  cases n with
  | zero => exact isNone_iff_eq_none.mp h
  | succ =>
    have hnil : nodes c = [] := isEmpty_iff.mp h
    rw [find, lookup, hnil]
    rfl

lemma Valid.lookup_iff (h : Valid (n + 1) tree) {node : TableNode κ (Contents κ ω n)} :
    lookup k tree = some node ↔ node ∈ nodes tree ∧ node.keyValue = k :=
  lookup_eq_some_iff h.1

/-! ### The entries -/

lemma mem_entries (h : Valid n c) {keys : KeyTuple κ n} {o : ω} :
    (keys, o) ∈ entries n c ↔ find n keys c = some o := by
  induction n with
  | zero =>
    cases c with
    | none => simp [entries, find]
    | some p =>
      change (KeyTuple.nil, o) ∈ [(KeyTuple.nil, p)] ↔ some p = some o
      simp [eq_comm]
  | succ _ ih =>
    rw [find, bind_eq_some_iff]
    refine mem_flatten.trans (exists_congr fun node ↦ ?_)
    rw [h.lookup_iff, and_assoc]
    refine and_congr_right fun hnode ↦ and_congr_right fun _ ↦ ?_
    exact ih (h.2 node hnode).1

lemma entries_ne_nil (h : Valid n c) (hfull : isEmpty n c = false) : entries n c ≠ [] := by
  induction n with
  | zero =>
    cases c with
    | none => exact absurd hfull (Bool.noConfusion : ¬ true = false)
    | some => simp [entries]
  | succ _ ih =>
    obtain ⟨node, rest, hnodes⟩ := exists_cons_of_ne_nil (isEmpty_eq_false_iff.mp hfull)
    have hnode : node ∈ nodes c := hnodes ▸ mem_cons_self
    obtain ⟨e, es, hentries⟩ := exists_cons_of_ne_nil (ih (h.2 node hnode).1 (h.2 node hnode).2)
    rw [entries, hnodes, NestedList.flatten_cons, NestedList.under, hentries]
    exact cons_ne_nil _ _

lemma Valid.entries_ne_nil (h : Valid (n + 1) tree) :
    ∀ node ∈ nodes tree, entries n node.contents ≠ [] :=
  fun node hnode ↦ Contents.entries_ne_nil (h.2 node hnode).1 (h.2 node hnode).2

lemma ordered_entries (h : Valid n c) : KeyedList.Ordered fst (entries n c) := by
  induction n with
  | zero =>
    cases c with
    | none => exact .nil
    | some => exact pairwise_singleton _ _
  | succ _ ih => exact ordered_flatten h.1 fun node hnode ↦ ih (h.2 node hnode).1

lemma first_eq (h : Valid n c) : first n c = (entries n c).head?.map snd := by
  induction n with
  | zero => cases c <;> rfl
  | succ _ ih =>
    refine Eq.trans ?_ (head?_flatten h.entries_ne_nil).symm
    refine bind_congr fun node hnode ↦ ?_
    exact ih (h.2 node (mem_of_mem_head? hnode)).1

/-- The search for the next object finds the entry with the next tuple. -/
lemma next_eq (h : Valid n c) (keys : KeyTuple κ n) :
    next n keys c = (findSucc fst keys (entries n c)).map snd := by
  induction n with
  | zero => cases c <;> rfl
  | succ n ih =>
    have hinner : ((lookup keys.head c).bind fun node ↦ next n keys.tail node.contents) =
        (lookup keys.head c).bind fun node ↦
          (findSucc fst keys.tail (entries n node.contents)).map snd := by
      refine bind_congr fun node hnode ↦ ?_
      exact ih (h.2 node (h.lookup_iff.mp hnode).1).1 keys.tail
    have hafter : ((lookupSucc keys.head c).bind fun node ↦ first n node.contents) =
        (lookupSucc keys.head c).bind fun node ↦
          (entries n node.contents).head?.map snd := by
      refine bind_congr fun node hnode ↦ ?_
      exact first_eq (h.2 node (mem_of_find?_eq_some hnode)).1
    refine Eq.trans ?_ (findSucc_flatten h.1 h.entries_ne_nil keys.head keys.tail).symm
    rw [next, hinner, hafter]
    unfold lookup lookupSucc
    split
    next o hfound => rw [hfound, some_or]
    next hfound => rw [hfound, none_or]

omit [LinearOrder κ] in
lemma walk_eq (action : σ → ω → σ × Bool) (s : σ) (c : Contents κ ω n) :
    walk action n s c = visit action s ((entries n c).map snd) := by
  induction n generalizing s with
  | zero =>
    cases c with
    | none => rfl
    | some o =>
      change action s o = if (action s o).2 then ((action s o).1, true) else action s o
      split_ifs with hgo
      · rw [← hgo]
      · rfl
  | succ n ih =>
    have hobjects : (entries (n + 1) c).map snd =
        (nodes c).flatMap fun node ↦ (entries n node.contents).map snd :=
      map_snd_flatten _
    rw [hobjects, ← visit_flatMap, walk]
    simp only [ih]

section Nodes

variable {n : ℕ} {tree : Contents κ ω (n + 1)} {node : TableNode κ (Contents κ ω n)}

lemma nodes_insertNode (h : Valid (n + 1) tree) (node : TableNode κ (Contents κ ω n)) :
    nodes (insertNode node tree) = insert TableNode.keyValue node (nodes tree) :=
  Avl.toList_insert node h.1

lemma nodes_deleteNode (h : Valid (n + 1) tree) (k : κ) :
    nodes (deleteNode k tree) = delete TableNode.keyValue k (nodes tree) :=
  Avl.toList_delete k h.1

lemma nodes_setContents (k : κ) (contents : Contents κ ω n) :
    nodes (setContents k contents tree) = update TableNode.keyValue k ⟨k, contents⟩ (nodes tree) :=
  Avl.toList_update _ k _ tree

section

variable (h : Valid (n + 1) tree) (k : κ)

include h

lemma Valid.insertNode (habsent : lookup node.keyValue tree = none)
    (hnode : Valid n node.contents) (hfull : isEmpty n node.contents = false) :
    Valid (n + 1) (insertNode node tree) := by
  refine ⟨?_, fun other hother ↦ ?_⟩
  · rw [nodes_insertNode h]
    exact h.1.insert (lookup_eq_none.mp habsent)
  · rw [nodes_insertNode h, mem_insert] at hother
    rcases hother with rfl | hother
    · exact ⟨hnode, hfull⟩
    · exact h.2 other hother

lemma Valid.deleteNode : Valid (n + 1) (deleteNode k tree) := by
  refine ⟨?_, fun other hother ↦ ?_⟩
  · rw [nodes_deleteNode h]
    exact h.1.delete k
  · rw [nodes_deleteNode h, mem_delete] at hother
    exact h.2 other hother.1

lemma Valid.setContents {contents : Contents κ ω n} (hcontents : Valid n contents)
    (hfull : isEmpty n contents = false) :
    Valid (n + 1) (setContents k contents tree) := by
  refine ⟨?_, fun other hother ↦ ?_⟩
  · rw [nodes_setContents]
    exact h.1.update rfl
  · rw [nodes_setContents, mem_update] at hother
    rcases hother with ⟨rfl, -⟩ | ⟨hother, -⟩
    · exact ⟨hcontents, hfull⟩
    · exact h.2 other hother

lemma find_insertNode (habsent : lookup node.keyValue tree = none) (keys : KeyTuple κ (n + 1)) :
    find (n + 1) keys (insertNode node tree) =
      if keys.head = node.keyValue then find n keys.tail node.contents
      else find (n + 1) keys tree := by
  rw [find, find, lookup, lookup, nodes_insertNode h, lookup_insert habsent]
  split_ifs
  · rfl
  · rfl

lemma find_deleteNode (keys : KeyTuple κ (n + 1)) :
    find (n + 1) keys (deleteNode k tree) =
      if keys.head = k then none else find (n + 1) keys tree := by
  rw [find, find, lookup, lookup, nodes_deleteNode h, lookup_delete]
  split_ifs
  · rfl
  · rfl

end

lemma find_setContents {k : κ} (hfound : lookup k tree = some node) (contents : Contents κ ω n)
    (keys : KeyTuple κ (n + 1)) :
    find (n + 1) keys (setContents k contents tree) =
      if keys.head = k then find n keys.tail contents else find (n + 1) keys tree := by
  have hkey : (⟨k, contents⟩ : TableNode κ (Contents κ ω n)).keyValue = k := rfl
  rw [lookup] at hfound
  rw [find, find, lookup, lookup, nodes_setContents, lookup_update hkey, hfound]
  split_ifs
  · rfl
  · rfl

end Nodes

/-! ### Insertion -/

lemma lookupInsert_fst (keys : KeyTuple κ n)
    (c : Contents κ ω n) : (lookupInsert access n keys c).1 = (access (find n keys c)).1 := by
  induction n with
  | zero => rfl
  | succ _ ih =>
    rw [lookupInsert, find]
    cases lookup keys.head c with
    | none => rw [ih, find_new, bind_none]
    | some node => exact ih keys.tail node.contents

variable (keys : KeyTuple κ n)

lemma isEmpty_of_find (h : find n keys c ≠ none) : isEmpty n c = false := by
  by_contra hempty
  exact h (find_of_isEmpty (Bool.not_eq_false _ ▸ hempty) keys)

/-- What is found under a tuple with the first key of a node is found below it. -/
lemma find_of_lookup {keys : KeyTuple κ (n + 1)}
    {found : Option (TableNode κ (Contents κ ω n))} (hlookup : lookup k tree = found)
    (hhead : keys.head = k) :
    find (n + 1) keys tree = found.bind fun node ↦ find n keys.tail node.contents := by
  rw [find, hhead, hlookup]

/-- The lookups after an access: only what is found under the tuple has changed. -/
lemma find_lookupInsert (keys : KeyTuple κ n) (h : Valid n c) (keys' : KeyTuple κ n) :
    find n keys' (lookupInsert access n keys c).2 =
      if keys' = keys then (access (find n keys c)).2 else find n keys' c := by
  induction n with
  | zero => exact (if_pos rfl).symm
  | succ n ih =>
    rw [lookupInsert, if_congr KeyTuple.eq_iff rfl rfl]
    cases hlookup : lookup keys.head c with
    | none =>
      rw [find_insertNode h hlookup, ih keys.tail (valid_new n), find_new, find_new]
      by_cases hhead : keys'.head = keys.head
      · simp [hhead, find_of_lookup hlookup rfl, find_of_lookup hlookup hhead]
      · simp [hhead]
    | some node =>
      have hnode := (h.lookup_iff.mp hlookup).1
      rw [find_setContents hlookup, ih keys.tail (h.2 node hnode).1]
      by_cases hhead : keys'.head = keys.head
      · simp [hhead, find_of_lookup hlookup rfl, find_of_lookup hlookup hhead]
      · simp [hhead]

lemma Valid.lookupInsert {access : Option ω → ρ × Option ω} (hstore : ∀ p, (access p).2 ≠ none)
    (keys : KeyTuple κ n) (h : Valid n c) : Valid n (lookupInsert access n keys c).2 := by
  induction n with
  | zero => trivial
  | succ n ih =>
    have hfull : ∀ {contents : Contents κ ω n}, Valid n contents →
        isEmpty n (lookupInsert access n keys.tail contents).2 = false := by
      intro contents hcontents
      refine isEmpty_of_find keys.tail ?_
      rw [find_lookupInsert access keys.tail hcontents, if_pos rfl]
      exact hstore _
    rw [lookupInsert]
    cases hlookup : lookup keys.head c with
    | none => exact h.insertNode hlookup (ih keys.tail (valid_new n)) (hfull (valid_new n))
    | some node =>
      have hnode := (h.2 node (h.lookup_iff.mp hlookup).1).1
      exact h.setContents keys.head (ih keys.tail hnode) (hfull hnode)

lemma Valid.removeAt (h : Valid n c) : Valid n (removeAt n keys c) := by
  induction n with
  | zero => trivial
  | succ _ ih =>
    rw [removeAt]
    cases hlookup : lookup keys.head c with
    | none => exact h
    | some node =>
      have hnode := (h.2 node (h.lookup_iff.mp hlookup).1).1
      dsimp only
      split_ifs with hempty
      · exact h.deleteNode keys.head
      · exact h.setContents keys.head (ih keys.tail hnode) (by simpa using hempty)

/-- The lookups after a removal: nothing is found under the tuple any more. -/
lemma find_removeAt (h : Valid n c) (keys' : KeyTuple κ n) :
    find n keys' (removeAt n keys c) = if keys' = keys then none else find n keys' c := by
  induction n with
  | zero => exact (if_pos rfl).symm
  | succ _ ih =>
    rw [removeAt, if_congr KeyTuple.eq_iff rfl rfl]
    cases hlookup : lookup keys.head c with
    | none =>
      split_ifs with heq
      · exact find_of_lookup hlookup heq.1
      · rfl
    | some node =>
      have hinner := ih keys.tail (h.2 node (h.lookup_iff.mp hlookup).1).1 keys'.tail
      dsimp only
      by_cases hhead : keys'.head = keys.head
      · rw [find_of_lookup hlookup hhead, bind_some]
        split_ifs with hempty htail htail
        · rw [find_deleteNode h, if_pos hhead]
        · -- the inner tree has become empty, so the tuple had nothing either
          rw [find_of_isEmpty hempty, if_neg fun heq ↦ htail ⟨hhead, heq⟩] at hinner
          rw [find_deleteNode h, if_pos hhead, ← hinner]
        · rw [find_setContents hlookup, if_pos hhead, hinner, if_pos htail.2]
        · rw [find_setContents hlookup, if_pos hhead, hinner, if_neg fun heq ↦ htail ⟨hhead, heq⟩]
      · have hne : ¬ (keys'.head = keys.head ∧ keys'.tail = keys.tail) := fun heq ↦ hhead heq.1
        split_ifs
        · rw [find_deleteNode h, if_neg hhead]
        · rw [find_setContents hlookup, if_neg hhead]

section Number

variable {n : ℕ} {c c' : Contents κ ω n}

variable (h : Valid n c)
include h

lemma nodup_keys : ((entries n c).map fst).Nodup :=
  pairwise_map.mpr ((ordered_entries h).imp fun hlt ↦ ne_of_lt hlt)

lemma mem_keys {keys : KeyTuple κ n} : keys ∈ (entries n c).map fst ↔ find n keys c ≠ none := by
  rw [ne_none_iff_exists', List.mem_map]
  constructor
  · rintro ⟨⟨keys', o⟩, hmem, rfl⟩
    exact ⟨o, (mem_entries h).mp hmem⟩
  · rintro ⟨o, hfind⟩
    exact ⟨(keys, o), (mem_entries h).mpr hfind, rfl⟩

lemma length_entries_of_iff (h' : Valid n c')
    (hfind : ∀ keys, find n keys c' = none ↔ find n keys c = none) :
    (entries n c').length = (entries n c).length := by
  have hperm : ((entries n c').map fst).Perm ((entries n c).map fst) := by
    refine (perm_ext_iff_of_nodup (nodup_keys h') (nodup_keys h)).mpr fun keys ↦ ?_
    rw [mem_keys h', mem_keys h]
    exact not_congr (hfind keys)
  simpa using hperm.length_eq

lemma length_entries_succ (h' : Valid n c') {keys : KeyTuple κ n} (habsent : find n keys c = none)
    (hfind : ∀ keys', find n keys' c' = none ↔ keys' ≠ keys ∧ find n keys' c = none) :
    (entries n c').length = (entries n c).length + 1 := by
  have hnot : keys ∉ (entries n c).map fst := fun hmem ↦ (mem_keys h).mp hmem habsent
  have hperm : ((entries n c').map fst).Perm (keys :: (entries n c).map fst) := by
    refine (perm_ext_iff_of_nodup (nodup_keys h')
      (nodup_cons.mpr ⟨hnot, nodup_keys h⟩)).mpr fun keys' ↦ ?_
    rw [mem_keys h', mem_cons, mem_keys h]
    have := hfind keys'
    tauto
  simpa using hperm.length_eq

end Number

end Contents

end OpenSplice.Database
