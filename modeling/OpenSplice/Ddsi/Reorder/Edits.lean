import OpenSplice.Ddsi.Reorder.Model
import OpenSplice.Library.IntervalList

/-!
# The edits of the reorder administration

`ReorderInv` is the representation invariant that the source's comments and asserts say piecemeal:
the intervals are separated, lie above `next_seq`, carry correct counts, and `max_sampleiv` is the
last of them. An interval may be wider than its chain is long, since a gap widens it without adding
to its chain; `Fits` is the layout that survives every operation.

`Stores` and `Evicts` describe the two edits of the interval list, split around the edited place.
-/

set_option autoImplicit false

namespace OpenSplice.Ddsi

open Library KeyedList List RsampleReorder IntervalList Reorder RsampleChainElem

variable {F : Type} {hi : ℤ} {sc : List (RsampleChainElem F)} {s last : RsampleReorder F}
  {r : Reorder F} {pre tree tree' : List (RsampleReorder F)}

variable {a m : RsampleReorder F} {post : List (RsampleReorder F)}

/-! ### The layout of a chain in its interval -/

/-- The elements of the chain can be placed at increasing numbers of `[lo, hi)`, each sample at its
own sequence number. A gap element has no number of its own and takes any free place. -/
def Fits (hi : ℤ) : ℤ → List (RsampleChainElem F) → Prop
  | lo, [] => lo ≤ hi
  | lo, e :: sc => ∃ p, lo ≤ p ∧ (∀ i, e.sampleinfo = some i → i.seq = p) ∧ Fits hi (p + 1) sc

lemma Fits.length_le : ∀ {lo : ℤ}, Fits hi lo sc → lo + sc.length ≤ hi := by
  induction sc with
  | nil => intro lo h; simpa [Fits] using h
  | cons _ _ ih =>
    rintro lo ⟨p, hp, -, hrest⟩
    have := ih hrest
    simp
    omega

lemma Fits.mono_lo {lo lo' : ℤ} (h : Fits hi lo sc) (hle : lo' ≤ lo) : Fits hi lo' sc := by
  cases sc with
  | nil => exact le_trans hle h
  | cons =>
    obtain ⟨p, hp, hseq, hrest⟩ := h
    exact ⟨p, le_trans hle hp, hseq, hrest⟩

lemma Fits.append {mid hi : ℤ} {a b : List (RsampleChainElem F)} :
    ∀ {lo : ℤ}, Fits mid lo a → Fits hi mid b → Fits hi lo (a ++ b) := by
  induction a with
  | nil => intro lo h hb; exact hb.mono_lo h
  | cons _ _ ih =>
    rintro lo ⟨p, hp, hseq, hrest⟩ hb
    exact ⟨p, hp, hseq, ih hrest hb⟩

lemma Fits.mono_hi {hi' lo : ℤ} (h : Fits hi lo sc) (hle : hi ≤ hi') : Fits hi' lo sc := by
  have hnil : Fits hi' hi ([] : List (RsampleChainElem F)) := hle
  simpa using h.append hnil

/-- The last element of a chain goes, and with it the last number of the interval. -/
lemma Fits.dropLast : ∀ {lo : ℤ}, Fits hi lo sc → sc ≠ [] → Fits (hi - 1) lo sc.dropLast := by
  induction sc with
  | nil => intro lo _ h; exact absurd rfl h
  | cons _ sc ih =>
    rintro lo ⟨p, hp, hseq, hrest⟩ -
    cases sc with
    | nil =>
      have : p + 1 ≤ hi := hrest
      show lo ≤ hi - 1
      omega
    | cons e' sc => exact ⟨p, hp, hseq, ih hrest (cons_ne_nil e' sc)⟩

/-- The samples of a chain are numbered increasingly, within the interval. -/
lemma Fits.chainSeqs : ∀ {lo : ℤ}, Fits hi lo sc →
      (chainSeqs sc).Pairwise (· < ·) ∧ ∀ x ∈ Ddsi.chainSeqs sc, lo ≤ x ∧ x < hi := by
  induction sc with
  | nil => intro lo _; simp
  | cons e sc ih =>
    rintro lo ⟨p, hp, hseq, hrest⟩
    obtain ⟨hsorted, hrange⟩ := ih hrest
    have hle := hrest.length_le
    cases hinfo : e.sampleinfo with
    | none =>
      have hcons : Ddsi.chainSeqs (e :: sc) = Ddsi.chainSeqs sc := by
        simp [Ddsi.chainSeqs, seq?, hinfo]
      rw [hcons]
      refine ⟨hsorted, fun x hx ↦ ?_⟩
      have := hrange x hx
      omega
    | some i =>
      have hcons : Ddsi.chainSeqs (e :: sc) = p :: Ddsi.chainSeqs sc := by
        simp [Ddsi.chainSeqs, seq?, hinfo, hseq i hinfo]
      rw [hcons, pairwise_cons]
      refine ⟨⟨fun x hx ↦ (hrange x hx).1, hsorted⟩, fun x hx ↦ ?_⟩
      rcases mem_cons.mp hx with rfl | hx
      · omega
      · have := hrange x hx
        omega

/-! ### The representation invariant -/

/-- An interval of the tree: a non-empty chain of the recorded length that fits. -/
structure IntervalOk (s : RsampleReorder F) : Prop where
  chain_ne : s.sc ≠ []
  count : s.nSamples = s.sc.length
  fits : Fits s.maxp1 s.min s.sc

namespace IntervalOk

lemma lt (h : IntervalOk s) : s.min < s.maxp1 := by
  have := h.fits.length_le
  have := length_pos_iff.mpr h.chain_ne
  omega

lemma append {a b : RsampleReorder F} (ha : IntervalOk a) (hb : IntervalOk b)
    (hab : a.maxp1 ≤ b.min) : IntervalOk (appendRsampleInterval a b) where
  chain_ne := by simp [appendRsampleInterval, ha.chain_ne]
  count := by simp [appendRsampleInterval, ha.count, hb.count]
  fits := ha.fits.append (hb.fits.mono_lo hab)

lemma prepend {s : RsampleReorder F} (hs : IntervalOk s) (hm : IntervalOk m)
    (hsm : s.maxp1 ≤ m.min) : IntervalOk (prependRsampleInterval s m) where
  chain_ne := by simp [prependRsampleInterval, hs.chain_ne]
  count := by simp [prependRsampleInterval, hs.count, hm.count, Nat.add_comm]
  fits := hs.fits.append (hm.fits.mono_lo hsm)

lemma dropLastSample (h : IntervalOk last) (hlen : last.sc.length ≠ 1) :
    IntervalOk (dropLastSample last) where
  chain_ne := by
    have := length_pos_iff.mpr h.chain_ne
    refine length_pos_iff.mp ?_
    simp [Ddsi.dropLastSample]
    omega
  count := by simp [Ddsi.dropLastSample, h.count]
  fits := h.fits.dropLast h.chain_ne

lemma widen {s t : RsampleReorder F} (h : IntervalOk s) (hmin : t.min ≤ s.min)
    (hmax : s.maxp1 ≤ t.maxp1) (hsc : t.sc = s.sc) (hcount : t.nSamples = s.nSamples) :
    IntervalOk t where
  chain_ne := by rw [hsc]; exact h.chain_ne
  count := by rw [hsc, hcount, h.count]
  fits := by rw [hsc]; exact (h.fits.mono_lo hmin).mono_hi hmax

end IntervalOk

lemma intervalOk_rsampleNew (fragchain : F) (info : RsampleInfo) :
    IntervalOk (reorderRsampleNew fragchain info) where
  chain_ne := by simp [reorderRsampleNew]
  count := rfl
  fits := ⟨info.seq, le_rfl, by simp, le_rfl⟩

def storedCount (tree : List (RsampleReorder F)) : ℕ := (tree.map fun s ↦ s.sc.length).sum

@[simp] lemma storedCount_nil : storedCount ([] : List (RsampleReorder F)) = 0 := rfl

@[simp] lemma storedCount_cons (s : RsampleReorder F) (tree : List (RsampleReorder F)) :
    storedCount (s :: tree) = s.sc.length + storedCount tree := by
  simp [storedCount]

@[simp] lemma storedCount_append (t1 t2 : List (RsampleReorder F)) :
    storedCount (t1 ++ t2) = storedCount t1 + storedCount t2 := by
  simp [storedCount]

abbrev SeparatedTree (tree : List (RsampleReorder F)) : Prop :=
  IntervalList.Separated RsampleReorder.min RsampleReorder.maxp1 tree

/-- The representation invariant of a reorder administration in normal mode. -/
structure ReorderInv (r : Reorder F) : Prop where
  mode : r.mode = .normal
  pos : 1 ≤ r.nextSeq
  intervals : ∀ s ∈ r.sampleivtree, IntervalOk s
  separated : SeparatedTree r.sampleivtree
  above : ∀ s ∈ r.sampleivtree, r.nextSeq < s.min
  max : r.maxSampleiv = KeyedList.lastKey RsampleReorder.min r.sampleivtree
  count : r.nSamples = storedCount r.sampleivtree
  bounded : r.nSamples ≤ r.maxSamples

lemma reorderInv_new (maxSamples : ℕ) :
    ReorderInv (nnReorderNew .normal maxSamples : Reorder F) where
  mode := rfl
  pos := le_rfl
  intervals := by simp [nnReorderNew]
  separated := .nil
  above := by simp [nnReorderNew]
  max := rfl
  count := rfl
  bounded := Nat.zero_le maxSamples

def Reorder.withTree (r : Reorder F) (tree : List (RsampleReorder F)) : Reorder F :=
  { r with sampleivtree := tree, maxSampleiv := KeyedList.lastKey RsampleReorder.min tree }

section

variable (h : ReorderInv r)
include h

lemma ReorderInv.ordered : KeyedList.Ordered min r.sampleivtree :=
  h.separated.ordered fun s hs ↦ le_of_lt (h.intervals s hs).lt

lemma ReorderInv.maxIv_eq : r.maxIv = r.sampleivtree.getLast? := by
  unfold maxIv
  rw [h.max]
  unfold lastKey
  cases hlast : r.sampleivtree.getLast? with
  | none => rfl
  | some => exact lookup_of_mem h.ordered (mem_of_getLast? hlast)

lemma ReorderInv.maxp1_le_last (htree : r.sampleivtree = pre ++ [last])
    (ha : a ∈ r.sampleivtree) : a.maxp1 ≤ last.maxp1 := by
  obtain ⟨-, -, hcross⟩ := separated_append.mp (htree ▸ h.separated)
  have hlast := (h.intervals last (by simp [htree])).lt
  rw [htree] at ha
  rcases mem_append.mp ha with ha | ha
  · have := hcross a ha last mem_cons_self
    omega
  · rw [mem_singleton.mp ha]

lemma ReorderInv.withTree_self : r.withTree r.sampleivtree = r := by
  unfold withTree
  rw [← h.max]

end

/-! ### The two edits of the interval list -/

/-- The interval `s` is added to a list that does not know its numbers: as an interval of its own,
at the end of the one before it, at the head of the one after it, or joining the two. -/
inductive Stores (s : RsampleReorder F) :
    List (RsampleReorder F) → List (RsampleReorder F) → Prop
  | new {pre post : List (RsampleReorder F)} (hpre : ∀ a ∈ pre, a.maxp1 < s.min)
      (hpost : ∀ b ∈ post, s.maxp1 < b.min) : Stores s (pre ++ post) (pre ++ s :: post)
  | append {pre post : List (RsampleReorder F)} {p : RsampleReorder F} (hp : p.maxp1 = s.min)
      (hpost : ∀ b ∈ post, s.maxp1 < b.min) :
      Stores s (pre ++ p :: post) (pre ++ appendRsampleInterval p s :: post)
  | prepend {pre post : List (RsampleReorder F)} {m : RsampleReorder F}
      (hpre : ∀ a ∈ pre, a.maxp1 < s.min) (hm : m.min = s.maxp1) :
      Stores s (pre ++ m :: post) (pre ++ prependRsampleInterval s m :: post)
  | join {pre post : List (RsampleReorder F)} {p m : RsampleReorder F} (hp : p.maxp1 = s.min)
      (hm : m.min = s.maxp1) :
      Stores s (pre ++ p :: m :: post)
        (pre ++ appendRsampleInterval (appendRsampleInterval p s) m :: post)

/-- The last element of the last chain is dropped, with its interval if it is the only one. -/
inductive Evicts : List (RsampleReorder F) → List (RsampleReorder F) → Prop
  | interval {pre : List (RsampleReorder F)} {last : RsampleReorder F}
      (hlen : last.sc.length = 1) : Evicts (pre ++ [last]) pre
  | element {pre : List (RsampleReorder F)} {last : RsampleReorder F}
      (hlen : last.sc.length ≠ 1) : Evicts (pre ++ [last]) (pre ++ [dropLastSample last])

section

variable (h : Stores s tree tree')

include h

lemma Stores.ne_nil : tree' ≠ [] := by
  cases h <;> simp

lemma Stores.intervals (hs : IntervalOk s)
    (htree : ∀ a ∈ tree, IntervalOk a) : ∀ a ∈ tree', IntervalOk a := by
  cases h with
  | new =>
    simp only [forall_mem_append, forall_mem_cons] at htree ⊢
    exact ⟨htree.1, hs, htree.2⟩
  | append hp =>
    simp only [forall_mem_append, forall_mem_cons] at htree ⊢
    exact ⟨htree.1, htree.2.1.append hs (le_of_eq hp), htree.2.2⟩
  | prepend _ hm =>
    simp only [forall_mem_append, forall_mem_cons] at htree ⊢
    exact ⟨htree.1, hs.prepend htree.2.1 (le_of_eq hm.symm), htree.2.2⟩
  | join hp hm =>
    simp only [forall_mem_append, forall_mem_cons] at htree ⊢
    obtain ⟨hpre, hpok, hmok, hpost⟩ := htree
    exact ⟨hpre, (hpok.append hs (le_of_eq hp)).append hmok (le_of_eq hm.symm), hpost⟩

lemma Stores.separated (hsep : SeparatedTree tree) : SeparatedTree tree' := by
  cases h with
  | new hpre hpost => exact IntervalList.Separated.replace [] hsep hpre hpost
  | @append _ _ p _ hpost =>
    obtain ⟨-, -, hcross⟩ := separated_append.mp hsep
    exact IntervalList.Separated.replace [p] hsep (fun a ha ↦ hcross a ha p mem_cons_self) hpost
  | @prepend _ _ m hpre =>
    obtain ⟨-, hrest, -⟩ := separated_append.mp hsep
    exact IntervalList.Separated.replace [m] hsep hpre (separated_cons.mp hrest).1
  | @join _ _ p m =>
    obtain ⟨-, hrest, hcross⟩ := separated_append.mp hsep
    obtain ⟨-, hrest⟩ := separated_cons.mp hrest
    exact IntervalList.Separated.replace [p, m] hsep
      (fun a ha ↦ hcross a ha p mem_cons_self) (separated_cons.mp hrest).1

lemma Stores.storedCount : storedCount tree' = Ddsi.storedCount tree + s.sc.length := by
  cases h <;>
    simp [storedCount_append, storedCount_cons, appendRsampleInterval, prependRsampleInterval] <;>
    omega

lemma Stores.above {k : ℤ} (hs : k < s.min)
    (htree : ∀ a ∈ tree, k < a.min) : ∀ a ∈ tree', k < a.min := by
  cases h <;> simp only [forall_mem_append, forall_mem_cons] at htree ⊢
  case new => exact ⟨htree.1, hs, htree.2⟩
  case append => exact ⟨htree.1, htree.2.1, htree.2.2⟩
  case prepend => exact ⟨htree.1, hs, htree.2.2⟩
  case join => exact ⟨htree.1, htree.2.1, htree.2.2.2⟩

end

section

variable (h : Evicts tree tree')
include h

lemma Evicts.separated (hsep : SeparatedTree tree) : SeparatedTree tree' := by
  obtain ⟨hsepPre, -, hcross⟩ := separated_append.mp
    (show SeparatedTree (tree.dropLast ++ (tree.getLast?).toList) by cases h <;> simpa using hsep)
  cases h with
  | interval => simpa using hsepPre
  | @element _ last =>
    exact IntervalList.Separated.replace [last] hsep
      (fun a ha ↦ hcross a (by simpa using ha) last (by simp)) (by simp)

lemma Evicts.above {k : ℤ} (htree : ∀ a ∈ tree, k < a.min) : ∀ a ∈ tree', k < a.min := by
  cases h with
  | interval => exact fun a ha ↦ htree a (mem_append_left _ ha)
  | element =>
    simp only [forall_mem_append, forall_mem_singleton] at htree ⊢
    exact htree

variable (htree : ∀ a ∈ tree, IntervalOk a)
include htree

lemma Evicts.intervals : ∀ a ∈ tree', IntervalOk a := by
  cases h with
  | interval => exact fun a ha ↦ htree a (mem_append_left _ ha)
  | element hlen =>
    simp only [forall_mem_append, forall_mem_singleton] at htree ⊢
    exact ⟨htree.1, htree.2.dropLastSample hlen⟩

lemma Evicts.storedCount : Ddsi.storedCount tree' + 1 = Ddsi.storedCount tree := by
  cases h with
  | interval hlen => simp [hlen]
  | @element _ last =>
    have hpos := length_pos_iff.mpr (htree last (by simp)).chain_ne
    simp [storedCount_append, storedCount_cons, storedCount_nil, dropLastSample]
    omega

end

lemma deleteLastSample_evicts (hord : KeyedList.Ordered min r.sampleivtree)
    (hmax : r.maxSampleiv = lastKey min r.sampleivtree)
    (hne : r.sampleivtree ≠ []) :
    ∃ tree, Evicts r.sampleivtree tree ∧ deleteLastSample r = r.withTree tree := by
  obtain ⟨pre, last, htree⟩ := (eq_nil_or_concat' r.sampleivtree).resolve_left hne
  rw [htree] at hord
  rw [htree, lastKey_concat] at hmax
  have hiv : r.maxIv = some last := by
    unfold maxIv
    rw [hmax, htree]
    exact lookup_split hord
  unfold deleteLastSample
  rw [hiv, htree]
  dsimp only
  split_ifs with hlen
  · refine ⟨pre, .interval hlen, ?_⟩
    rw [delete_split hord, append_nil]
    rfl
  · refine ⟨pre ++ [dropLastSample last], .element hlen, ?_⟩
    rw [update_split hord]
    unfold withTree
    rw [lastKey_concat, hmax]
    rfl

/-! ### Storing a sample -/

/-- A number the predecessor lookup does not find covered lies behind every interval that starts
before it. -/
lemma maxp1_le_of_unknown (hsep : SeparatedTree tree) (hord : KeyedList.Ordered min tree) {x : ℤ}
    (hunknown : ∀ p, lookupPredEq min x tree = some p → p.maxp1 ≤ x) (ha : a ∈ tree)
    (hax : a.min ≤ x) : a.maxp1 ≤ x := by
  cases hp : lookupPredEq min x tree with
  | none =>
    have := lookupPredEq_eq_none.mp hp a ha
    omega
  | some p =>
    obtain ⟨pre, post, rfl, hpx, hpost⟩ := lookupPredEq_eq_some hord hp
    have hpmax := hunknown p hp
    obtain ⟨-, -, hcross⟩ := separated_append.mp hsep
    rcases mem_middle.mp ha with ha | rfl | ha
    · have := hcross a ha p mem_cons_self
      omega
    · exact hpmax
    · have := hpost a ha
      omega

/-- `reorder_try_append_and_discard` joins `appendto` to the interval right behind it, if there is
one, and says whether that was the last. -/
lemma reorderTryAppendAndDiscard_join (appendto : RsampleReorder F)
    (hord : KeyedList.Ordered min (pre ++ m :: post))
    (hmax : r.maxSampleiv = lastKey min (pre ++ m :: post)) (hm : m.min = appendto.maxp1) :
    reorderTryAppendAndDiscard r (pre ++ m :: post) appendto (some m) =
      (pre ++ post, appendRsampleInterval appendto m,
        decide (lastKey min (pre ++ m :: post) = some m.min)) := by
  unfold reorderTryAppendAndDiscard
  dsimp only
  rw [if_neg (by omega), delete_split hord, hmax]

/-- The last branch of `nn_reorder_rsample` where the number extends its predecessor. -/
lemma reorderInsertHard_predeq (h : ReorderInv r) {p : RsampleReorder F}
    (hs : s.maxp1 = s.min + 1) (htree : r.sampleivtree = pre ++ p :: post) (hp : p.maxp1 = s.min)
    (hpost : ∀ b ∈ post, s.min < b.min) :
    ∃ tree, Stores s r.sampleivtree tree ∧ reorderInsertHard r s (some p)
        (lookup min s.maxp1 r.sampleivtree) = r.withTree tree := by
  have hord := h.ordered
  have hmax := h.max
  have hpmin := (h.intervals p (by simp [htree])).lt
  have hfilter : (some p).filter (fun p ↦ decide (s.min = p.maxp1)) = some p := by simp [hp]
  unfold reorderInsertHard
  rw [hfilter]
  rw [htree] at hord hmax ⊢
  cases himm : lookup min s.maxp1 (pre ++ p :: post) with
  | none =>
    have hne := lookup_eq_none.mp himm
    refine ⟨pre ++ appendRsampleInterval p s :: post, .append hp fun b hb ↦ ?_, ?_⟩
    · have := hpost b hb
      have := hne b (by simp [hb])
      omega
    · simp only [reorderTryAppendAndDiscard, Bool.false_eq_true, if_false]
      rw [update_split hord]
      unfold withTree
      rw [hmax, lastKey_split, lastKey_split]
      rfl
  | some m =>
    obtain ⟨hmem, hmmin⟩ := lookup_eq_some himm
    obtain ⟨-, hordPost, hbefore, -, -⟩ := ordered_append_cons.mp hord
    -- `m` starts right behind `s`, so it is the first of the intervals behind `p`
    have hmpost : m ∈ post := by
      rcases mem_middle.mp hmem with hm | rfl | hm
      · have := hbefore m hm
        omega
      · omega
      · exact hm
    obtain ⟨post, rfl⟩ := hordPost.eq_cons_of_least hmpost fun b hb ↦ by
      have := hpost b hb
      omega
    refine ⟨_, .join hp hmmin, ?_⟩
    have hord' : KeyedList.Ordered min ((pre ++ [p]) ++ m :: post) := by simpa using hord
    have hjoin := reorderTryAppendAndDiscard_join (appendRsampleInterval p s) hord'
      (hmax.trans (by simp)) hmmin
    have hord'' : KeyedList.Ordered min (pre ++ p :: post) := hord.sublist (by simp)
    have hrekey := lastKey_rekey hord' p.min
    simp only [append_assoc, singleton_append] at hjoin hrekey
    dsimp only
    rw [hjoin]
    simp only [decide_eq_true_eq]
    rw [update_split hord'', hmax, hrekey]
    unfold withTree
    rw [lastKey_split]
    rfl

/-- The last branch of `nn_reorder_rsample` where the number does not extend its predecessor. -/
lemma reorderInsertHard_no_predeq (h : ReorderInv r) {predeq : Option (RsampleReorder F)}
    (hs : s.maxp1 = s.min + 1) (hlast : last ∈ r.sampleivtree) (hlt : s.min < last.min)
    (hpred : predeq.filter (fun p ↦ s.min = p.maxp1) = none)
    (hbelow : ∀ a ∈ r.sampleivtree, a.min ≤ s.min → a.maxp1 < s.min) :
    ∃ tree, Stores s r.sampleivtree tree ∧ reorderInsertHard r s predeq
        (lookup min s.maxp1 r.sampleivtree) = r.withTree tree := by
  have hord := h.ordered
  have hmax := h.max
  unfold reorderInsertHard
  rw [hpred]
  cases himm : lookup min s.maxp1 r.sampleivtree with
  | none =>
    have hne := lookup_eq_none.mp himm
    obtain ⟨pre, post, htree, hpre, hpost⟩ := hord.exists_split s.min
    rw [htree] at hbelow hne hlast ⊢
    have hbefore : ∀ a ∈ pre, a.maxp1 < s.min := fun a ha ↦
      hbelow a (mem_append_left post ha) (hpre a ha)
    have hafter : ∀ b ∈ post, s.maxp1 < b.min := fun b hb ↦ by
      have := hpost b hb
      have := hne b (mem_append_right pre hb)
      omega
    have hlastpost : last ∈ post := (mem_append.mp hlast).resolve_left fun hmem ↦ by
      have := hpre last hmem
      omega
    obtain ⟨init, max, rfl⟩ := (eq_nil_or_concat' post).resolve_left (ne_nil_of_mem hlastpost)
    refine ⟨_, .new hbefore hafter, ?_⟩
    have hbefore' : ∀ a ∈ pre, a.min < s.min := fun a ha ↦ by
      have := (h.intervals a (by simp [htree, ha])).lt
      have := hbefore a ha
      omega
    rw [insert_split hbefore' hpost, hmax, htree]
    unfold withTree
    rw [← append_assoc, lastKey_concat, lastKey_split, lastKey_concat]
    rfl
  | some =>
    obtain ⟨hmem, hmmin⟩ := lookup_eq_some himm
    obtain ⟨pre, post, htree⟩ := append_of_mem hmem
    rw [htree] at hord hmax hbelow ⊢
    obtain ⟨-, -, hbefore, hafter, -⟩ := ordered_append_cons.mp hord
    refine ⟨_, .prepend (fun a ha ↦ ?_) hmmin, ?_⟩
    · have := hbefore a ha
      exact hbelow a (mem_append_left _ ha) (by omega)
    · dsimp only
      rw [update_split hord]
      rw [hmax, lastKey_rekey hord]
      unfold withTree
      rw [lastKey_split]
      rfl

/-- The last branch of `nn_reorder_rsample`: the number is below the end of the last interval, and
the administration does not know it. -/
lemma reorderInsertHard_stores (h : ReorderInv r) (hs : s.maxp1 = s.min + 1)
    (hlast : last ∈ r.sampleivtree) (hlt : s.min < last.maxp1)
    (hunknown : ∀ p, lookupPredEq min s.min r.sampleivtree = some p → p.maxp1 ≤ s.min) :
    ∃ tree, Stores s r.sampleivtree tree ∧
      reorderInsertHard r s (lookupPredEq min s.min r.sampleivtree)
        (lookup min s.maxp1 r.sampleivtree) = r.withTree tree := by
  have hbelow : ∀ a ∈ r.sampleivtree, a.min ≤ s.min → a.maxp1 ≤ s.min := fun a ha ↦
    maxp1_le_of_unknown h.separated h.ordered hunknown ha
  have hlastmin : s.min < last.min := by
    by_contra hle
    have := hbelow last hlast (by omega)
    omega
  by_cases hextends : ∃ p, lookupPredEq min s.min r.sampleivtree = some p ∧ p.maxp1 = s.min
  · obtain ⟨p, hp, hpmax⟩ := hextends
    obtain ⟨pre, post, htree, -, hpost⟩ := lookupPredEq_eq_some h.ordered hp
    rw [hp]
    exact reorderInsertHard_predeq h hs htree hpmax hpost
  · refine reorderInsertHard_no_predeq h hs hlast hlastmin ?_ fun a ha hamin ↦ ?_
    · refine Option.filter_eq_none_iff.mpr fun p hp ↦ ?_
      have : p.maxp1 ≠ s.min := fun heq ↦ hextends ⟨p, hp, heq⟩
      simp
      omega
    · -- an interval that ends at `s.min` is the predecessor
      refine lt_of_le_of_ne (hbelow a ha hamin) fun heq ↦ hextends ⟨a, ?_, heq⟩
      obtain ⟨pre, post, htree⟩ := append_of_mem ha
      obtain ⟨-, hsep, -⟩ := separated_append.mp (htree ▸ h.separated)
      rw [htree]
      refine lookupPredEq_split hamin fun b hb ↦ ?_
      have := (separated_cons.mp hsep).1 b hb
      omega

/-! ### Coalescing -/

/-- The search of `coalesce_intervals_touching_range` splits the list where the intervals begin to
reach the range. -/
lemma firstTouching_split (hsep : SeparatedTree tree) (htree : ∀ a ∈ tree, IntervalOk a)
    {min maxp1 : ℤ} (hle : min ≤ maxp1) :
    ∃ pre post, tree = pre ++ post ∧ (∀ a ∈ pre, a.maxp1 < min) ∧ (∀ b ∈ post, min ≤ b.maxp1) ∧
      firstTouching min maxp1 tree = post.head?.filter fun t ↦ t.min ≤ maxp1 := by
  have hord : KeyedList.Ordered RsampleReorder.min tree :=
    hsep.ordered fun a ha ↦ le_of_lt (htree a ha).lt
  unfold firstTouching
  cases hp : lookupPredEq RsampleReorder.min min tree with
  | none =>
    refine ⟨[], tree, rfl, by simp, fun b hb ↦ ?_, rfl⟩
    have := lookupPredEq_eq_none.mp hp b hb
    have := (htree b hb).lt
    omega
  | some p =>
    obtain ⟨pre, post, rfl, hpmin, hpost⟩ := lookupPredEq_eq_some hord hp
    obtain ⟨-, -, hcross⟩ := separated_append.mp hsep
    have hbefore : ∀ a ∈ pre, a.maxp1 < min := fun a ha ↦
      lt_of_lt_of_le (hcross a ha p mem_cons_self) hpmin
    have hafter : ∀ b ∈ post, min ≤ b.maxp1 := fun b hb ↦ by
      have := hpost b hb
      have := (htree b (by simp [hb])).lt
      omega
    dsimp only
    split_ifs with hreach
    · refine ⟨pre, p :: post, rfl, hbefore, forall_mem_cons.mpr ⟨hreach, hafter⟩, ?_⟩
      have hstart : p.min ≤ maxp1 := by omega
      rw [head?_cons, Option.filter_some, if_pos (by simpa using hstart)]
    · refine ⟨pre ++ [p], post, by simp, ?_, hafter, ?_⟩
      · simp only [forall_mem_append, forall_mem_singleton]
        exact ⟨hbefore, by omega⟩
      · rw [findSucc_split hord]

/-- The loop of `coalesce_intervals_touching_range` absorbs the intervals up to the first that
starts behind `maxp1`. -/
lemma coalesceSuccessors_split (maxp1 : ℤ) {rest : List (RsampleReorder F)} :
    ∀ s, KeyedList.Ordered min rest →
      ∃ mid post, rest = mid ++ post ∧ (∀ a ∈ mid, a.min ≤ maxp1) ∧ (∀ b ∈ post, maxp1 < b.min) ∧
        ∃ absorbed,
          coalesceSuccessors maxp1 s rest =
            (mid.foldl appendRsampleInterval s, post, absorbed) := by
  induction rest with
  | nil => exact fun _ _ ↦ ⟨[], [], rfl, by simp, by simp, false, rfl⟩
  | cons t rest ih =>
    intro s hord
    unfold coalesceSuccessors
    split_ifs with hreach
    · obtain ⟨mid, post, rfl, hmid, hpost, absorbed, heq⟩ :=
        ih (appendRsampleInterval s t) hord.tail
      refine ⟨t :: mid, post, rfl, forall_mem_cons.mpr ⟨hreach, hmid⟩, hpost, true, ?_⟩
      rw [heq, foldl_cons]
    · refine ⟨[], t :: rest, rfl, by simp, forall_mem_cons.mpr ⟨by omega, fun b hb ↦ ?_⟩,
        false, rfl⟩
      have := (pairwise_cons.mp hord).1 b hb
      omega

/-- What `coalesce_intervals_touching_range` makes of the intervals it finds. -/
def coalesced (min maxp1 : ℤ) (first : RsampleReorder F) (mid : List (RsampleReorder F)) :
    RsampleReorder F :=
  growRange min maxp1 (mid.foldl appendRsampleInterval first)

/-- The intervals `first :: mid` of the tree `pre ++ first :: mid ++ post` are those that touch the
range `[min, maxp1)`. -/
structure Touching (tree : List (RsampleReorder F)) (min maxp1 : ℤ)
    (pre : List (RsampleReorder F)) (first : RsampleReorder F)
    (mid post : List (RsampleReorder F)) : Prop where
  split : tree = pre ++ (first :: mid ++ post)
  before : ∀ a ∈ pre, a.maxp1 < min
  start : ∀ a ∈ first :: mid, a.min ≤ maxp1
  stop : ∀ a ∈ first :: mid, min ≤ a.maxp1
  after : ∀ b ∈ post, maxp1 < b.min

variable (mid : List (RsampleReorder F))

lemma foldl_append_min : ∀ first, (mid.foldl appendRsampleInterval first).min = first.min := by
  induction mid with
  | nil => exact fun _ ↦ rfl
  | cons t _ ih => exact fun first ↦ ih (appendRsampleInterval first t)

lemma foldl_append_maxp1 : ∀ first,
      ∃ a ∈ first :: mid, (mid.foldl appendRsampleInterval first).maxp1 = a.maxp1 := by
  induction mid with
  | nil => exact fun first ↦ ⟨first, by simp, rfl⟩
  | cons t _ ih =>
    intro first
    obtain ⟨a, ha, heq⟩ := ih (appendRsampleInterval first t)
    rcases mem_cons.mp ha with rfl | ha
    · exact ⟨t, by simp, heq⟩
    · exact ⟨a, by simp [ha], heq⟩

lemma foldl_append_sc :
    ∀ first, (mid.foldl appendRsampleInterval first).sc =
      first.sc ++ mid.flatMap RsampleReorder.sc := by
  induction mid with
  | nil => simp
  | cons _ _ ih =>
    intro first
    rw [foldl_cons, ih, flatMap_cons, ← append_assoc]
    rfl

lemma intervalOk_foldl_append : ∀ first, SeparatedTree (first :: mid) →
      (∀ a ∈ first :: mid, IntervalOk a) → IntervalOk (mid.foldl appendRsampleInterval first) := by
  induction mid with
  | nil => exact fun first _ hok ↦ hok first (by simp)
  | cons t _ ih =>
    intro first hsep hok
    obtain ⟨hfirst, hsep⟩ := separated_cons.mp hsep
    obtain ⟨ht, hmid⟩ := separated_cons.mp hsep
    simp only [forall_mem_cons] at hok
    obtain ⟨hfirstOk, htOk, hmidOk⟩ := hok
    refine ih _ (separated_cons.mpr ⟨ht, hmid⟩) (forall_mem_cons.mpr ⟨?_, hmidOk⟩)
    exact hfirstOk.append htOk (hfirst t mem_cons_self).le

lemma coalesced_min (min maxp1 : ℤ) (first : RsampleReorder F) (mid : List (RsampleReorder F)) :
    (coalesced min maxp1 first mid).min = Min.min min first.min := by
  simp only [coalesced, growRange, foldl_append_min]
  split_ifs <;> omega

lemma coalesced_sc_length (min maxp1 : ℤ) (first : RsampleReorder F)
    (mid : List (RsampleReorder F)) :
    (coalesced min maxp1 first mid).sc.length = storedCount (first :: mid) := by
  rw [coalesced, growRange, foldl_append_sc, ← flatMap_cons, length_flatMap]
  rfl

/-- The coalesced interval ends with the range or with one of the intervals. -/
lemma coalesced_maxp1 (min maxp1 : ℤ) (first : RsampleReorder F) (mid : List (RsampleReorder F)) :
    maxp1 ≤ (coalesced min maxp1 first mid).maxp1 ∧ ((coalesced min maxp1 first mid).maxp1 = maxp1 ∨
        ∃ a ∈ first :: mid, (coalesced min maxp1 first mid).maxp1 = a.maxp1) := by
  obtain ⟨a, ha, heq⟩ := foldl_append_maxp1 mid first
  simp only [coalesced, growRange]
  split_ifs with hlt
  · exact ⟨le_rfl, .inl rfl⟩
  · exact ⟨by omega, .inr ⟨a, ha, heq⟩⟩

section Touching

variable {tree pre mid post : List (RsampleReorder F)} {first : RsampleReorder F} {min maxp1 : ℤ}

section

variable (h : Touching tree min maxp1 pre first mid post)

include h

section

variable (hsep : SeparatedTree tree)
include hsep

lemma Touching.separated : SeparatedTree (pre ++ coalesced min maxp1 first mid :: post) := by
  rw [h.split] at hsep
  obtain ⟨-, hrest, hcross⟩ := separated_append.mp hsep
  obtain ⟨-, -, hbehind⟩ := separated_append.mp hrest
  refine hsep.replace (first :: mid) (fun a ha ↦ ?_) fun b hb ↦ ?_
  · have := h.before a ha
    have := hcross a ha first (by simp)
    rw [coalesced_min]
    exact lt_min (by omega) (by omega)
  · rcases (coalesced_maxp1 min maxp1 first mid).2 with heq | ⟨a, ha, heq⟩
    · rw [heq]
      exact h.after b hb
    · rw [heq]
      exact hbehind a ha b hb

section

variable (hok : ∀ a ∈ tree, IntervalOk a)
include hok

lemma Touching.joined_ok : IntervalOk (mid.foldl appendRsampleInterval first) := by
  rw [h.split] at hsep hok
  obtain ⟨-, hrest, -⟩ := separated_append.mp hsep
  obtain ⟨hsepMid, -⟩ := separated_append.mp hrest
  exact intervalOk_foldl_append mid first hsepMid fun a ha ↦
    hok a (mem_append_right pre (mem_append_left post ha))

lemma Touching.coalesced_ok : IntervalOk (coalesced min maxp1 first mid) := by
  refine (h.joined_ok hsep hok).widen ?_ ?_ rfl rfl
  · simp only [coalesced, growRange]
    split_ifs <;> omega
  · simp only [coalesced, growRange]
    split_ifs <;> omega

/-- The samples of the coalesced interval lie in the intervals it was made of. -/
lemma Touching.chainSeqs_coalesced :
    (chainSeqs (coalesced min maxp1 first mid).sc).Pairwise (· < ·) ∧
      ∀ x ∈ chainSeqs (coalesced min maxp1 first mid).sc,
        first.min ≤ x ∧ x < (coalesced min maxp1 first mid).maxp1 := by
  obtain ⟨hsorted, hrange⟩ := (h.joined_ok hsep hok).fits.chainSeqs
  refine ⟨hsorted, fun x hx ↦ ?_⟩
  have hx := hrange x hx
  rw [foldl_append_min] at hx
  simp only [coalesced, growRange]
  split_ifs <;> omega

lemma Touching.intervals : ∀ a ∈ pre ++ coalesced min maxp1 first mid :: post, IntervalOk a := by
  have hc := h.coalesced_ok hsep hok
  rw [h.split] at hok
  simp only [forall_mem_append, forall_mem_cons] at hok ⊢
  exact ⟨hok.1, hc, hok.2.2⟩

end

end

end

end Touching

lemma coalesceIntervalsTouchingRange_cases (hsep : SeparatedTree tree)
    (htree : ∀ a ∈ tree, IntervalOk a) {min maxp1 : ℤ} (hle : min ≤ maxp1) :
    (coalesceIntervalsTouchingRange tree min maxp1 = none ∧ firstTouching min maxp1 tree = none ∧
      ∀ a ∈ tree, a.maxp1 < min ∨ maxp1 < a.min) ∨
    ∃ pre first mid post valuable, Touching tree min maxp1 pre first mid post ∧
      coalesceIntervalsTouchingRange tree min maxp1 =
        some (coalesced min maxp1 first mid, pre ++ coalesced min maxp1 first mid :: post,
          valuable) := by
  obtain ⟨pre, post, rfl, hbefore, hafter, hfirst⟩ := firstTouching_split hsep htree hle
  have hord : KeyedList.Ordered RsampleReorder.min (pre ++ post) :=
    hsep.ordered fun a ha ↦ le_of_lt (htree a ha).lt
  unfold coalesceIntervalsTouchingRange
  rw [hfirst]
  cases post with
  | nil => refine .inl ⟨rfl, rfl, fun a ha ↦ .inl (hbefore a (by simpa using ha))⟩
  | cons s post =>
    by_cases hs : s.min ≤ maxp1
    · have hsome : (s :: post).head?.filter (fun t ↦ decide (t.min ≤ maxp1)) = some s := by
        simp [hs]
      rw [hsome]
      obtain ⟨-, hordPost, -, -, -⟩ := ordered_append_cons.mp hord
      obtain ⟨mid, post, rfl, hmid, hpost, absorbed, heq⟩ :=
        coalesceSuccessors_split maxp1 s hordPost
      let joined := mid.foldl appendRsampleInterval s
      refine .inr ⟨pre, s, mid, post,
        absorbed || decide (min < joined.min) || decide (joined.maxp1 < maxp1),
          ⟨rfl, hbefore, ?_, ?_, hpost⟩, ?_⟩
      · exact forall_mem_cons.mpr ⟨hs, hmid⟩
      · exact fun a ha ↦ hafter a (by simp only [mem_cons, mem_append] at ha ⊢; tauto)
      · rw [Option.map_some, filter_gt_split hord, filter_lt_split hord, heq]
        rfl
    · have hnone : (s :: post).head?.filter (fun t ↦ decide (t.min ≤ maxp1)) = none := by
        simpa using hs
      rw [hnone]
      refine .inl ⟨rfl, rfl, fun a ha ↦ ?_⟩
      rcases mem_append.mp ha with ha | ha
      · exact .inl (hbefore a ha)
      obtain ⟨-, -, -, hgt, -⟩ := ordered_append_cons.mp hord
      rcases mem_cons.mp ha with rfl | ha
      · omega
      · have := hgt a ha
        omega

end OpenSplice.Ddsi
