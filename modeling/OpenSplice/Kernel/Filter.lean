import OpenSplice.Database.Expr

/-!
# Content filters

`filterNew` (`v_filterNew`) compiles a filter expression into a list of disjuncts, each of them
split into a part about the key fields and the rest, and `filterEval` (`filterEval`) evaluates it
for a message.

`q_deNot` drops a `NOT` in front of `LIKE`, so that `NOT x LIKE y` is the same filter as `x LIKE y`
(`filter_drops_not`), and `NOT x < y` becomes `x >= y`, which is false as well when the values of
`x` and `y` have no order. The filter has the value of the expression exactly when this makes no
difference (`filter_meaning`).
-/

set_option autoImplicit false

namespace OpenSplice.Kernel

open Database List Expr Option Term

variable {α : Type} (v : Valuation α)

/-- What the type of the messages has to say about an expression: the fields that it has, and the
terms that can be compared once the parameters are set. -/
structure FilterType (α : Type) where
  resolves : List String → Bool
  compatible : Term α → Term α → Bool

/-- `v_filter`: the parts of each disjunct about the key fields and about the others, and whether
there are any. -/
structure Filter (α : Type) where
  disjuncts : List (Option (Expr α) × Option (Expr α))
  hasKey : Bool
  hasNonkey : Bool

def FilterType.resolvesTerm (type : FilterType α) : Term α → Bool
  | .field path => type.resolves path
  | _ => true

/-- `createFilter`. -/
def createFilter (type : FilterType α) (e : Expr α) : Option (Expr α) :=
  if e.allAtoms (fun l r ↦ type.resolvesTerm l && type.resolvesTerm r) then
    if e.allAtoms type.compatible then some e else none
  else none

def createPart (type : FilterType α) : Option (Expr α) → Option (Option (Expr α))
  | none => some none
  | some e => (createFilter type e).map some

/-- The loop of `v_filterNew`. -/
def filterParts (type : FilterType α) (keyList : List String) :
    List (Expr α) → Option (List (Option (Expr α) × Option (Expr α)))
  | [] => some []
  | e :: list => do
    let key ← createPart type (e.takeKey keyList).1
    let nonkey ← createPart type (e.takeKey keyList).2
    let rest ← filterParts type keyList list
    return (key, nonkey) :: rest

/-- `v_filterNew`. -/
def filterNew (type : FilterType α) (keyList : List String) (e : Option (Expr α))
    (nrOfParams : ℕ) : Option (Filter α) :=
  match e with
  | none => some ⟨[], false, false⟩
  | some e =>
    if nrOfParams < e.lastVar then none
    else do
      let expr := ((e.prefixFieldNames "userData").disjunctify).removeNots
      let parts ← filterParts type keyList (expr.deOr [])
      return ⟨parts, parts.any fun p ↦ p.1.isSome, parts.any fun p ↦ p.2.isSome⟩

/-- The loop of `filterEval`. -/
def evalDisjuncts (v : Valuation α) (onlykey : Bool) :
    Bool → List (Option (Expr α) × Option (Expr α)) → Bool
  | pass, [] => pass
  | _, (key, nonkey) :: rest =>
    let pass := (onlykey || nonkey.all (Expr.value v)) && key.all (Expr.value v)
    if pass then true else evalDisjuncts v onlykey pass rest

/-- `filterEval`. -/
def filterEval (v : Valuation α) (f : Filter α) (onlykey : Bool) : Bool :=
  evalDisjuncts v onlykey true f.disjuncts

lemma evalDisjuncts_false (list : List (Option (Expr α) × Option (Expr α))) :
    evalDisjuncts v false false list = list.any fun p ↦ p.1.all (value v) && p.2.all (value v) := by
  induction list with
  | nil => rfl
  | cons p _ ih =>
    rw [evalDisjuncts, any_cons]
    simp only [Bool.false_or, Bool.and_comm (p.2.all _)]
    split_ifs with h
    · rw [h, Bool.true_or]
    · rw [Bool.not_eq_true _ |>.mp h, ih, Bool.false_or]

variable {type : FilterType α} {keyList : List String}

lemma createPart_eq_some {e e' : Option (Expr α)} (h : createPart type e = some e') : e' = e := by
  cases e with
  | none => exact (some_inj.mp h).symm
  | some =>
    obtain ⟨e'', h', rfl⟩ := map_eq_some_iff.mp h
    rw [createFilter] at h'
    split_ifs at h'
    rw [some_inj.mp h']

lemma filterParts_eq_some {list : List (Expr α)} {parts : List (Option (Expr α) × Option (Expr α))}
    (h : filterParts type keyList list = some parts) : parts = list.map (takeKey keyList) := by
  induction list generalizing parts with
  | nil => exact (some_inj.mp h).symm
  | cons _ _ ih =>
    simp only [filterParts, bind_eq_bind, bind_eq_some_iff, Option.pure_def] at h
    obtain ⟨key, hkey, nonkey, hnonkey, rest, hrest, hparts⟩ := h
    rw [← some_inj.mp hparts, ih hrest, createPart_eq_some hkey,
      createPart_eq_some hnonkey, map_cons]

lemma deOr_ne_nil (e : Expr α) (list : List (Expr α)) : e.deOr list ≠ [] := by
  induction e generalizing list with
  | or _ _ _ hr => exact hr _
  | cmp | like | and | not => exact cons_ne_nil _ _

lemma evalDisjuncts_of_ne_nil (onlykey pass : Bool)
    {list : List (Option (Expr α) × Option (Expr α))} (h : list ≠ []) :
    evalDisjuncts v onlykey pass list = evalDisjuncts v onlykey false list := by
  cases list with
  | nil => exact absurd rfl h
  | cons => rfl

/-- What a filter computes: the value of the expression without the negations that are lost. -/
lemma filterEval_filterNew {e : Expr α} {nrOfParams : ℕ} {f : Filter α}
    (h : filterNew type keyList (some e) nrOfParams = some f) (v : Valuation α) :
    filterEval v f false = ((e.prefixFieldNames "userData").unnegate v false).value v := by
  rw [filterNew] at h
  split_ifs at h
  simp only [bind_eq_bind, bind_eq_some_iff, Option.pure_def] at h
  obtain ⟨parts, hparts, hf⟩ := h
  obtain rfl := some_inj.mp hf
  have hvalue : ∀ x : Expr α, ((x.takeKey keyList).1.all (value v) &&
      (x.takeKey keyList).2.all (value v)) = x.value v := value_takeKey v keyList
  rw [filterEval, filterParts_eq_some hparts, evalDisjuncts_of_ne_nil, evalDisjuncts_false,
    List.any_map]
  · simp only [Function.comp_def, hvalue]
    rw [any_deOr _ fun _ _ ↦ rfl, any_nil, Bool.or_false,
      value_removeNots_disjunctify, value_unnegate, Bool.xor_false]
  · simpa using deOr_ne_nil _ _

/-- A filter has the value of its expression for a message exactly if that value does not depend on
the negations of the terms with `LIKE` and of the comparisons of values without an order. -/
theorem filter_meaning {type : FilterType α} {keyList : List String} {e : Expr α}
    {nrOfParams : ℕ} {f : Filter α} (h : filterNew type keyList (some e) nrOfParams = some f)
    (v : Valuation α) :
    filterEval v f false = (e.prefixFieldNames "userData").value v ↔
      ((e.prefixFieldNames "userData").unnegate v false).value v =
        (e.prefixFieldNames "userData").value v := by
  rw [filterEval_filterNew h v]

def anyType (α : Type) : FilterType α := ⟨fun _ ↦ true, fun _ _ ↦ true⟩

def allEqual (α : Type) : Valuation α := ⟨fun _ _ ↦ some .eq, fun _ _ ↦ true⟩

/-- A filter for a value of a key field and a bound on another field that is written with `NOT`. -/
theorem filter_meaning_of_bound :
    ∃ f : Filter ℕ, filterNew (anyType ℕ) ["userData.x"]
        (some (.and (.cmp .eq (.field ["x"]) (.const 1))
          (.not (.cmp .lt (.field ["y"]) (.const 2)))))
        0 = some f ∧ f.hasKey = true ∧ f.hasNonkey = true ∧
      filterEval (allEqual ℕ) f false = true := by
  let key : Expr ℕ := .cmp .eq (.field ["userData", "x"]) (.const 1)
  let bound : Expr ℕ := .cmp .ge (.field ["userData", "y"]) (.const 2)
  have hname : fieldName ["userData", "x"] = "userData.x" := by decide
  have hname' : fieldName ["userData", "y"] ≠ "userData.x" := by decide
  have hf : filterNew (anyType ℕ) ["userData.x"]
      (some (.and (.cmp .eq (.field ["x"]) (.const 1)) (.not (.cmp .lt (.field ["y"]) (.const 2)))))
      0 = some ⟨[(some key, some bound)], true, true⟩ := by
    simp [key, bound, filterNew, Expr.lastVar, Term.lastVar, Expr.prefixFieldNames, prefixed,
      disjunctify_and_of_ne, Expr.deOr, filterParts, Expr.takeKey, Expr.takeAtoms, conj, isKey,
      hname, hname', createPart, createFilter, anyType, Expr.allAtoms, FilterType.resolvesTerm,
      Tag.negate]
  exact ⟨_, hf, rfl, rfl, (filter_meaning hf (allEqual ℕ)).mpr rfl⟩

/-- The negation of a term with `LIKE` is dropped. -/
theorem filter_drops_not :
    ∃ f : Filter ℕ, filterNew (anyType ℕ) []
        (some (.not (.like (.field ["x"]) (.const 1)))) 0 = some f ∧
      filterEval (allEqual ℕ) f false = true ∧
      ((Expr.not (.like (.field ["x"]) (.const 1))).prefixFieldNames "userData").value
        (allEqual ℕ) = false := by
  refine ⟨⟨[(none, some (.like (.field ["userData", "x"]) (.const 1)))], false, true⟩, ?_, rfl, rfl⟩
  simp [filterNew, Expr.lastVar, Term.lastVar, Expr.prefixFieldNames, prefixed, Expr.deOr,
    filterParts, Expr.takeKey, createPart, createFilter, anyType, Expr.allAtoms,
    FilterType.resolvesTerm]

end OpenSplice.Kernel
