import OpenSplice.Database.Table.Contents

/-!
# A keyed table is a finite map

Operations on a table are followed by the same ones on a map from tuples of key values to objects
(`Op.onMap`). One operation returns the same on both, and the table goes on representing the map
(`Table.Represents.step`), with its count up to `2 ^ 32`. A run in which every operation leaves room
in the count ends in a table that behaves as the map does (`table_finiteMap`); with `2 ^ 32` entries
the count is `0` again, and a walk visits none of them (`tableWalk_skips_entries`).
-/

set_option autoImplicit false

namespace OpenSplice.Database

open Utilities Library List Function Contents Table

variable {κ ω : Type} [LinearOrder κ]

/-! ### Operations on a table and on a map -/

inductive Op (κ ω : Type) (k : ℕ)
  | insert (o : ω)
  | replace (o : ω) (condition : Option (ω → ω → Bool))
  | remove (o : ω) (condition : Option (ω → ω → Bool))
  | find (keys : KeyTuple κ k)

variable {k : ℕ} (keyValues : ω → KeyTuple κ k) {m : KeyTuple κ k → Option ω} {t : Table κ ω k}

namespace Op

def onTable (t : Table κ ω k) : Op κ ω k → Option ω × Table κ ω k
  | insert o => t.tableInsert keyValues o
  | replace o condition => t.tableReplace keyValues o condition
  | remove o condition => t.tableRemove keyValues o condition
  | find keys => (t.tableFind keys, t)

/-- The operation on a map from tuples to objects: an insertion keeps the object that is there and
returns what is there then, a replacement and a removal change the object that is there if the
condition allows it. -/
def onMap (m : KeyTuple κ k → Option ω) : Op κ ω k → Option ω × (KeyTuple κ k → Option ω)
  | insert o =>
    match m (keyValues o) with
    | none => (some o, Function.update m (keyValues o) (some o))
    | some object => (some object, m)
  | replace o condition =>
    match m (keyValues o) with
    | none => (none, Function.update m (keyValues o) (some o))
    | some object =>
      if allows condition object o then (some object, Function.update m (keyValues o) (some o))
      else (some o, m)
  | remove o condition =>
    match m (keyValues o) with
    | none => (none, m)
    | some object =>
      if allows condition object o then (some object, Function.update m (keyValues o) none)
      else (none, m)
  | find keys => (m keys, m)

end Op

namespace Table

variable {keys : KeyTuple κ k}

def entries (t : Table κ ω k) : List (KeyTuple κ k × ω) := t.contents.entries k

/-- The table holds the map, with its count as far as a `c_ulong` goes. -/
structure Represents (t : Table κ ω k) (m : KeyTuple κ k → Option ω) : Prop where
  valid : t.contents.Valid k
  find : ∀ keys, t.contents.find k keys = m keys
  count : t.count = t.entries.length % 2 ^ 32

omit [LinearOrder κ] in
lemma entries_new : (new : Table κ ω k).entries = [] := by
  cases k <;> rfl

lemma represents_new : Represents (new : Table κ ω k) fun _ ↦ none := by
  refine ⟨valid_new k, find_new k, ?_⟩
  rw [entries_new]
  rfl

variable {t : Table κ ω k} {m : KeyTuple κ k → Option ω} (o : ω)

omit [LinearOrder κ] in
lemma insertAccess_ne_none (p : Option ω) : (insertAccess o p).2 ≠ none := by
  cases p <;> simp [insertAccess]

omit [LinearOrder κ] in
lemma replaceAccess_ne_none (condition : Option (ω → ω → Bool)) (p : Option ω) :
    (replaceAccess o condition p).2 ≠ none := by
  cases p with
  | none => simp [replaceAccess]
  | some =>
    rw [replaceAccess]
    split_ifs <;> simp

variable (h : t.Represents m)
include h

namespace Represents

/-- An object is stored under a tuple, and is counted if there was none. -/
lemma store {o : ω} {c : Contents κ ω k} (hvalid : c.Valid k)
    (hfind : ∀ keys', c.find k keys' = if keys' = keys then some o else t.contents.find k keys') :
    Represents ⟨c, t.countUp (m keys).isNone⟩ (update m keys (some o)) := by
  refine ⟨hvalid, fun keys' ↦ ?_, ?_⟩
  · rw [hfind, update_apply, h.find]
  · cases hm : m keys with
    | none =>
      have hlength : (c.entries k).length = t.entries.length + 1 := by
        refine length_entries_succ h.valid hvalid (h.find keys ▸ hm) fun keys' ↦ ?_
        rw [hfind]
        split_ifs with heq <;> simp [heq]
      change (t.count + 1) % 2 ^ 32 = (c.entries k).length % 2 ^ 32
      rw [hlength, h.count, Nat.mod_add_mod]
    | some =>
      have hlength : (c.entries k).length = t.entries.length := by
        refine length_entries_of_iff h.valid hvalid fun keys' ↦ ?_
        rw [hfind]
        split_ifs with heq
        · simp [heq, h.find, hm]
        · rfl
      change t.count = (c.entries k).length % 2 ^ 32
      rw [hlength, h.count]

lemma take {object : ω} (hm : m keys = some object) :
    Represents ⟨t.contents.removeAt k keys, t.countDown⟩ (update m keys none) := by
  have hvalid := h.valid.removeAt keys
  have hfind := find_removeAt keys h.valid
  refine ⟨hvalid, fun keys' ↦ ?_, ?_⟩
  · rw [hfind, update_apply, h.find]
  · have habsent : (t.contents.removeAt k keys).find k keys = none := by rw [hfind, if_pos rfl]
    have hlength : t.entries.length = ((t.contents.removeAt k keys).entries k).length + 1 := by
      refine length_entries_succ hvalid h.valid habsent fun keys' ↦ ?_
      rw [hfind]
      split_ifs with heq
      · simp [heq, h.find, hm]
      · simp [heq]
    change (t.count + (2 ^ 32 - 1)) % 2 ^ 32 =
      ((t.contents.removeAt k keys).entries k).length % 2 ^ 32
    rw [h.count, hlength]
    omega

lemma access {access : Option ω → (Option ω × Bool) × Option ω}
    (hstore : ∀ p, (access p).2 ≠ none) {r : Option ω} {o : ω}
    (haccess : access (m keys) = ((r, (m keys).isNone), some o)) :
    (t.contents.lookupInsert access k keys).1.1 = r ∧
      Represents ⟨(t.contents.lookupInsert access k keys).2,
          t.countUp (t.contents.lookupInsert access k keys).1.2⟩
        (update m keys (some o)) := by
  rw [lookupInsert_fst, h.find, haccess]
  refine ⟨rfl, h.store (h.valid.lookupInsert hstore keys) fun keys' ↦ ?_⟩
  rw [find_lookupInsert access keys h.valid, h.find keys, haccess]

/-- One operation returns the same on the table and on the map, and the table goes on representing
the map. -/
lemma step (op : Op κ ω k) :
    (op.onTable keyValues t).1 = (op.onMap keyValues m).1 ∧
      (op.onTable keyValues t).2.Represents (op.onMap keyValues m).2 := by
  have hsame : ∀ {keys : KeyTuple κ k} {object : ω}, m keys = some object →
      update m keys (some object) = m := by
    intro keys object hm
    rw [← hm, update_eq_self]
  cases op with
  | insert o =>
    rw [Op.onMap]
    cases hm : m (keyValues o) with
    | none => exact h.access (insertAccess_ne_none o) (by rw [hm]; rfl)
    | some =>
      -- the object that is there is stored again
      rw [← hsame hm]
      exact h.access (insertAccess_ne_none o) (by rw [hm]; rfl)
  | replace o condition =>
    rw [Op.onMap]
    cases hm : m (keyValues o) with
    | none => exact h.access (replaceAccess_ne_none o condition) (by rw [hm]; rfl)
    | some =>
      dsimp only
      split_ifs with hallows
      · exact h.access (replaceAccess_ne_none o condition) (by rw [hm]; exact if_pos hallows)
      · rw [← hsame hm]
        exact h.access (replaceAccess_ne_none o condition) (by rw [hm]; exact if_neg hallows)
  | remove o =>
    simp only [Op.onTable, Op.onMap, tableRemove, h.find]
    cases hm : m (keyValues o) with
    | none => exact ⟨rfl, h⟩
    | some =>
      dsimp only
      split_ifs with hallows
      · exact ⟨rfl, h.take hm⟩
      · exact ⟨rfl, h⟩
  | find keys => exact ⟨h.find keys, h⟩

lemma length_le {t' : Table κ ω k}
    {m' : KeyTuple κ k → Option ω} (h' : t'.Represents m') (added : List (KeyTuple κ k))
    (hsub : ∀ keys, m' keys ≠ none → keys ∈ added ∨ m keys ≠ none) :
    t'.entries.length ≤ added.length + t.entries.length := by
  have hkeys : (t'.entries.map Prod.fst).Subperm (added ++ t.entries.map Prod.fst) := by
    refine (nodup_keys h'.valid).subperm fun keys hmem ↦ ?_
    have hne := (mem_keys h'.valid).mp hmem
    rw [h'.find] at hne
    refine mem_append.mpr ((hsub keys hne).imp_right fun hm ↦ ?_)
    exact (mem_keys h.valid).mpr (h.find keys ▸ hm)
  simpa using hkeys.length_le

end Represents

end Table

/-! ### Runs -/

namespace Op

def Adds (m : KeyTuple κ k → Option ω) : Op κ ω k → Prop
  | insert o => m (keyValues o) = none
  | replace o _ => m (keyValues o) = none
  | remove _ _ => False
  | find _ => False

/-- The operation leaves room for its entry in the count: it adds none, or there are less than
`2 ^ 32 - 1` entries. -/
def Fits (op : Op κ ω k) (t : Table κ ω k) : Prop :=
  op.Adds keyValues t.tableFind → t.entries.length + 1 < 2 ^ 32

variable (m : KeyTuple κ k → Option ω)

lemma update_ne_none {m : KeyTuple κ k → Option ω} {keys keys' : KeyTuple κ k} {v : Option ω}
    (h : update m keys v keys' ≠ none) : keys' = keys ∨ m keys' ≠ none := by
  rw [update_apply] at h
  split_ifs at h with heq
  · exact .inl heq
  · exact .inr h

/-- Only an operation that adds gives an object to a tuple, and to one tuple only. -/
lemma onMap_ne_none (op : Op κ ω k) :
    ∃ added, added.length ≤ 1 ∧ (¬ op.Adds keyValues m → added = []) ∧
      ∀ keys, (op.onMap keyValues m).2 keys ≠ none → keys ∈ added ∨ m keys ≠ none := by
  have hgrow : ∀ {keys0 : KeyTuple κ k} {v : Option ω} (keys : KeyTuple κ k),
      update m keys0 v keys ≠ none → keys ∈ [keys0] ∨ m keys ≠ none :=
    fun keys h ↦ (update_ne_none h).imp_left mem_singleton.mpr
  have hstay : ∀ {keys0 : KeyTuple κ k} {v : Option ω}, m keys0 ≠ none →
      ∀ keys, update m keys0 v keys ≠ none → keys ∈ [] ∨ m keys ≠ none := by
    intro keys0 v hm keys h
    rcases update_ne_none h with rfl | hne
    · exact .inr hm
    · exact .inr hne
  cases op with
  | insert o =>
    rw [onMap, Adds]
    cases hm : m (keyValues o) with
    | none => exact ⟨[keyValues o], le_rfl, fun hnot ↦ absurd rfl hnot, hgrow⟩
    | some => exact ⟨[], Nat.zero_le 1, fun _ ↦ rfl, fun _ ↦ .inr⟩
  | replace o =>
    rw [onMap, Adds]
    cases hm : m (keyValues o) with
    | none => exact ⟨[keyValues o], le_rfl, fun hnot ↦ absurd rfl hnot, hgrow⟩
    | some =>
      refine ⟨[], Nat.zero_le 1, fun _ ↦ rfl, ?_⟩
      dsimp only
      split_ifs
      · exact hstay (by simp [hm])
      · exact fun _ ↦ .inr
  | remove o =>
    refine ⟨[], Nat.zero_le 1, fun _ ↦ rfl, ?_⟩
    rw [onMap]
    cases hm : m (keyValues o) with
    | none => exact fun _ ↦ .inr
    | some =>
      dsimp only
      split_ifs
      · exact hstay (by simp [hm])
      · exact fun _ ↦ .inr
  | find => exact ⟨[], Nat.zero_le 1, fun _ ↦ rfl, fun _ ↦ .inr⟩

end Op

namespace Table

variable {keyValues} {t : Table κ ω k} {m : KeyTuple κ k → Option ω}

lemma Represents.length_lt (h : t.Represents m) (hlength : t.entries.length < 2 ^ 32)
    {op : Op κ ω k} (hfits : op.Fits keyValues t) :
    (op.onTable keyValues t).2.entries.length < 2 ^ 32 := by
  have hfind : t.tableFind = m := funext h.find
  obtain ⟨added, hone, hnone, hsub⟩ := op.onMap_ne_none keyValues m
  have hle := h.length_le (h.step keyValues op).2 added hsub
  rw [Op.Fits, hfind] at hfits
  by_cases hadds : op.Adds keyValues m
  · have := hfits hadds
    omega
  · rw [hnone hadds] at hle
    simp only [length_nil, Nat.zero_add] at hle
    omega

variable (keyValues)

/-- The table behaves as the map does: a lookup finds what the map has, no tree below the root is
empty, and for the list of the entries of the map in lexicographic order, the count is its length,
a walk visits its objects, and the next object is that of the next tuple in it. -/
structure Behaves (t : Table κ ω k) (m : KeyTuple κ k → Option ω) : Prop where
  find : ∀ keys, t.tableFind keys = m keys
  valid : t.contents.Valid k
  listed : ∃ list : List (KeyTuple κ k × ω), KeyedList.Ordered Prod.fst list ∧
    (∀ keys o, (keys, o) ∈ list ↔ m keys = some o) ∧ t.count = list.length ∧
    (∀ (σ : Type) (action : σ → ω → σ × Bool) (s : σ),
      t.tableWalk action s = visit action s (list.map Prod.snd)) ∧
    (∀ o, t.tableNext keyValues (some o) =
      (KeyedList.findSucc Prod.fst (keyValues o) list).map Prod.snd) ∧
    t.tableNext keyValues none = list.head?.map Prod.snd

lemma Represents.behaves (h : t.Represents m) (hlength : t.entries.length < 2 ^ 32) :
    t.Behaves keyValues m := by
  have hcount : t.count = t.entries.length := by rw [h.count, Nat.mod_eq_of_lt hlength]
  refine ⟨h.find, h.valid, t.entries, ordered_entries h.valid, fun keys o ↦ ?_, hcount,
    fun σ action s ↦ ?_, fun o ↦ next_eq h.valid (keyValues o),
    first_eq h.valid⟩
  · rw [← h.find]
    exact mem_entries h.valid
  · rw [tableWalk, hcount]
    split_ifs with hsome
    · exact walk_eq action s t.contents
    · rw [length_eq_zero_iff.mp (Nat.eq_zero_of_not_pos hsome)]
      rfl

end Table

def runOnTable : Table κ ω k → List (Op κ ω k) → List (Option ω) × Table κ ω k
  | t, [] => ([], t)
  | t, op :: ops =>
    let out := op.onTable keyValues t
    let rest := runOnTable out.2 ops
    (out.1 :: rest.1, rest.2)

def runOnMap : (KeyTuple κ k → Option ω) → List (Op κ ω k) →
    List (Option ω) × (KeyTuple κ k → Option ω)
  | m, [] => ([], m)
  | m, op :: ops =>
    let out := op.onMap keyValues m
    let rest := runOnMap out.2 ops
    (out.1 :: rest.1, rest.2)

def FitsAll : Table κ ω k → List (Op κ ω k) → Prop
  | _, [] => True
  | t, op :: ops => op.Fits keyValues t ∧ FitsAll (op.onTable keyValues t).2 ops

lemma Table.Represents.run (h : t.Represents m) (ops : List (Op κ ω k)) :
    (runOnTable keyValues t ops).1 = (runOnMap keyValues m ops).1 ∧
      (runOnTable keyValues t ops).2.Represents (runOnMap keyValues m ops).2 := by
  induction ops generalizing t m with
  | nil => exact ⟨rfl, h⟩
  | cons op _ ih =>
    obtain ⟨hreply, hstep⟩ := h.step keyValues op
    obtain ⟨hreplies, hrun⟩ := ih hstep
    exact ⟨congrArg₂ cons hreply hreplies, hrun⟩

variable {keyValues} (n : ℕ)

lemma Table.Represents.run_length_lt
    (h : t.Represents m) (hlength : t.entries.length < 2 ^ 32) {ops : List (Op κ ω k)}
    (hfits : FitsAll keyValues t ops) : (runOnTable keyValues t ops).2.entries.length < 2 ^ 32 := by
  induction ops generalizing t m with
  | nil => exact hlength
  | cons op _ ih => exact ih (h.step keyValues op).2 (h.length_lt hlength hfits.1) hfits.2

/-- A run of operations that fit, from a new table, returns what it returns on the empty map, and
the table behaves as the map does then. -/
theorem table_finiteMap (ops : List (Op κ ω k)) (hfits : FitsAll keyValues Table.new ops) :
    (runOnTable keyValues Table.new ops).1 = (runOnMap keyValues (fun _ ↦ none) ops).1 ∧
      (runOnTable keyValues Table.new ops).2.Behaves keyValues
        (runOnMap keyValues (fun _ ↦ none) ops).2 := by
  obtain ⟨hreplies, hrun⟩ := represents_new.run keyValues ops
  refine ⟨hreplies, hrun.behaves keyValues (represents_new.run_length_lt ?_ hfits)⟩
  rw [entries_new]
  exact Nat.two_pow_pos 32

def digits (o : ℕ) : KeyTuple ℕ 2 := toLex (o / 10, toLex (o % 10, ()))

def digitOps : List (Op ℕ ℕ 2) :=
  [.insert 12, .insert 15, .insert 31, .replace 15 none, .remove 31 none, .find (digits 15),
    .insert 31]

theorem table_finiteMap_of_digits :
    FitsAll digits Table.new digitOps ∧
      (runOnTable digits Table.new digitOps).1 = (runOnMap digits (fun _ ↦ none) digitOps).1 ∧
      (runOnTable digits Table.new digitOps).2.Behaves digits
        (runOnMap digits (fun _ ↦ none) digitOps).2 := by
  have hfits : FitsAll digits new digitOps :=
    ⟨fun _ ↦ by decide, fun _ ↦ by decide, fun _ ↦ by decide, fun _ ↦ by decide, False.elim,
      False.elim, fun _ ↦ by decide, trivial⟩
  exact ⟨hfits, table_finiteMap digitOps hfits⟩

/-! ### A table with `2 ^ 32` entries -/

def natKey (o : ℕ) : KeyTuple ℕ 1 := toLex (o, ())

/-- The insertion of the objects below `n`. -/
def insertAll : ℕ → List (Op ℕ ℕ 1)
  | 0 => []
  | n + 1 => .insert n :: insertAll n

lemma natKey_inj {a b : ℕ} : natKey a = natKey b ↔ a = b :=
  ⟨fun h ↦ congrArg KeyTuple.head h, fun h ↦ h ▸ rfl⟩

lemma runOnMap_insertAll (m : KeyTuple ℕ 1 → Option ℕ) (o : ℕ) :
    (runOnMap natKey m (insertAll n)).2 (natKey o) =
      if o < n then (m (natKey o)).or (some o) else m (natKey o) := by
  induction n generalizing m with
  | zero => rfl
  | succ n ih =>
    have hstep : ((Op.insert n).onMap natKey m).2 (natKey o) =
        if o = n then (m (natKey o)).or (some o) else m (natKey o) := by
      rw [Op.onMap]
      cases hm : m (natKey n) with
      | none =>
        dsimp only
        rw [update_apply, if_congr natKey_inj rfl rfl]
        split_ifs with heq
        · rw [heq, hm, Option.none_or]
        · rfl
      | some =>
        dsimp only
        split_ifs with heq
        · rw [heq, hm, Option.some_or]
        · rfl
    rw [insertAll, runOnMap]
    rw [ih, hstep]
    rcases lt_trichotomy o n with hlt | heq | hgt
    · rw [if_pos hlt, if_neg hlt.ne, if_pos (hlt.trans n.lt_succ_self)]
    · rw [if_neg heq.not_lt, if_pos heq, if_pos (heq ▸ n.lt_succ_self)]
    · rw [if_neg hgt.not_gt, if_neg hgt.ne', if_neg (by omega)]

/-- The table after `n` insertions has `n` entries, of which it has counted the remainder. -/
lemma insertAll_entries : (runOnTable natKey Table.new (insertAll n)).2.Represents
        (runOnMap natKey (fun _ ↦ none) (insertAll n)).2 ∧
      (runOnTable natKey Table.new (insertAll n)).2.entries.length = n := by
  have hrun := (represents_new.run natKey (insertAll n)).2
  refine ⟨hrun, ?_⟩
  have hperm : ((runOnTable natKey new (insertAll n)).2.entries.map Prod.fst).Perm
      ((range n).map natKey) := by
    have hnodup : ((range n).map natKey).Nodup := nodup_range.map fun a b h ↦ natKey_inj.mp h
    refine (perm_ext_iff_of_nodup (nodup_keys hrun.valid) hnodup).mpr fun keys ↦ ?_
    refine (mem_keys hrun.valid).trans ?_
    have hkeys : keys = natKey keys.head := rfl
    rw [hrun.find, hkeys, runOnMap_insertAll]
    simp [natKey_inj]
  simpa using hperm.length_eq

/-- A table whose number of entries is a multiple of `2 ^ 32` counts none of them. -/
lemma insertAll_count {n : ℕ} (hn : n % 2 ^ 32 = 0) :
    (runOnTable natKey Table.new (insertAll n)).2.count = 0 := by
  obtain ⟨hrun, hlength⟩ := insertAll_entries n
  rw [hrun.count, hlength, hn]

/-- After `2 ^ 32` insertions the count is `0`, and a walk visits nothing. -/
theorem tableWalk_skips_entries :
    (runOnTable natKey Table.new (insertAll (2 ^ 32))).2.entries.length = 2 ^ 32 ∧
      (runOnTable natKey Table.new (insertAll (2 ^ 32))).2.count = 0 ∧
      (runOnTable natKey Table.new (insertAll (2 ^ 32))).2.tableWalk
        (fun visited o ↦ (o :: visited, true)) [] = ([], true) ∧
      ¬ (runOnTable natKey Table.new (insertAll (2 ^ 32))).2.Behaves natKey
        (runOnMap natKey (fun _ ↦ none) (insertAll (2 ^ 32))).2 := by
  have hcount := insertAll_count (n := 2 ^ 32) (Nat.mod_self _)
  refine ⟨(insertAll_entries (2 ^ 32)).2, hcount, ?_, fun hbehaves ↦ ?_⟩
  · rw [tableWalk, hcount, if_neg (lt_irrefl 0)]
  · obtain ⟨list, -, hlist, hlength, -⟩ := hbehaves.listed
    rw [hcount, eq_comm, List.length_eq_zero_iff] at hlength
    have hmem := (hlist (natKey 0) 0).mpr (by
      rw [runOnMap_insertAll, if_pos (Nat.two_pow_pos 32)]
      rfl)
    rw [hlength] at hmem
    exact List.not_mem_nil hmem

end OpenSplice.Database
