import OpenSplice.Ddsi.Defrag.Model
import OpenSplice.Library.IntervalList

/-!
# What adding a fragment can do

The shape of a record's interval tree (`FragTreeOk`) and everything `defragAddFragment` can do to
the in-order list of its intervals (`FragStep`). Offsets are 32-bit in the source, and the start of
a fragment may wrap around, so a fragment may start beyond every offset `B` at which a sample ends,
and end before it starts (`WfFrag`). Such a fragment is never joined to another.

The loop over `defrag_try_merge_with_succ` ends after one round, because the value it tests is the
one it has just assigned.
-/

set_option autoImplicit false

namespace OpenSplice.Ddsi

open Library Utilities KeyedList List Option IntervalList DefragIv Avl RsampleDefrag

variable {f : Rdata} {B : ℕ} {pre post : List DefragIv} {c p : DefragIv}

variable {info : RsampleInfo} {sample : RsampleDefrag} {grown : Option DefragIv}

namespace RsampleDefrag

def ivs (sample : RsampleDefrag) : List DefragIv := sample.fragtree.toList

end RsampleDefrag

lemma nnRdataIsFragment_eq_true :
    nnRdataIsFragment f info ↔ ¬ (f.min = 0 ∧ f.maxp1 = info.size) := by
  simp [nnRdataIsFragment, imp_iff_not_or]

lemma isComplete_eq_true :
    isComplete sample ↔ ∃ root, sample.fragtree.root = some root ∧ root.min = 0 ∧
      sample.sampleinfo.size ≤ root.maxp1 := by
  simp [isComplete, Option.any_eq_true]

/-- A fragment ends at or before `B`, and starts before its end or beyond `B`. -/
def WfFrag (B : ℕ) (f : Rdata) : Prop := f.maxp1 ≤ B ∧ (f.min < f.maxp1 ∨ B < f.min)

/-- The shape of the intervals of a record: in order, separated, the first of them at zero. -/
structure FragListOk (B : ℕ) (l : List DefragIv) : Prop where
  ordered : KeyedList.Ordered DefragIv.min l
  separated : IntervalList.Separated DefragIv.min DefragIv.maxp1 l
  bounded : ∀ a ∈ l, a.maxp1 ≤ B ∧ (a.min ≤ a.maxp1 ∨ B < a.min)
  first : l.head?.map DefragIv.min = some 0

/-- A record: its intervals have the right shape, and `lastfrag` is the last of them. -/
structure FragTreeOk (B : ℕ) (sample : RsampleDefrag) : Prop where
  list : FragListOk B sample.ivs
  last : sample.lastfrag = KeyedList.lastKey DefragIv.min sample.ivs

/-- What a fragment does to the intervals of a record. The last argument is the interval that was
grown at its end, if any. -/
inductive FragStep (f : Rdata) : List DefragIv → List DefragIv → Option DefragIv → Prop
  | contained {pre post : List DefragIv} {p : DefragIv} (hmin : p.min ≤ f.min)
      (hend : f.maxp1 ≤ p.maxp1) : FragStep f (pre ++ p :: post) (pre ++ p :: post) none
  | grow {pre post : List DefragIv} {p : DefragIv} (hmin : p.min ≤ f.min)
      (hreach : f.min ≤ p.maxp1) (hend : p.maxp1 < f.maxp1) (hpost : ∀ b ∈ post, f.maxp1 < b.min) :
      FragStep f (pre ++ p :: post)
        (pre ++ { p with frags := p.frags ++ [f], maxp1 := f.maxp1 } :: post) (some p)
  | growMerge {pre post : List DefragIv} {p s : DefragIv} (hmin : p.min ≤ f.min)
      (hreach : f.min ≤ p.maxp1) (hend : p.maxp1 < f.maxp1) (hlt : f.min < s.min)
      (hs : s.min ≤ f.maxp1) :
      FragStep f (pre ++ p :: s :: post)
        (pre ++ { p with frags := p.frags ++ [f] ++ s.frags, maxp1 := s.maxp1 } :: post) (some p)
  | extend {pre post : List DefragIv} {p s : DefragIv} (hbehind : p.maxp1 < f.min)
      (hlt : f.min < s.min) (hs : s.min ≤ f.maxp1) (hend : f.maxp1 ≤ s.maxp1) :
      FragStep f (pre ++ p :: s :: post)
        (pre ++ p :: { s with frags := f :: s.frags, min := f.min } :: post) none
  | extendEnd {pre post : List DefragIv} {p s : DefragIv} (hbehind : p.maxp1 < f.min)
      (hlt : f.min < s.min) (hs : s.min ≤ f.maxp1) (hend : s.maxp1 < f.maxp1)
      (hpost : ∀ b ∈ post, f.maxp1 < b.min) :
      FragStep f (pre ++ p :: s :: post) (pre ++ p :: ⟨f.min, f.maxp1, f :: s.frags⟩ :: post) none
  | extendMerge {pre post : List DefragIv} {p s t : DefragIv} (hbehind : p.maxp1 < f.min)
      (hlt : f.min < s.min) (hs : s.min ≤ f.maxp1) (hend : s.maxp1 < f.maxp1)
      (ht : t.min ≤ f.maxp1) :
      FragStep f (pre ++ p :: s :: t :: post)
        (pre ++ p :: ⟨f.min, t.maxp1, f :: s.frags ++ t.frags⟩ :: post) none
  | new {pre post : List DefragIv} {p : DefragIv} (hmin : p.min < f.min) (hbehind : p.maxp1 < f.min)
      (hlt : ∀ b ∈ post, f.min < b.min) (hpost : ∀ b ∈ post, f.maxp1 < b.min) :
      FragStep f (pre ++ p :: post) (pre ++ p :: ⟨f.min, f.maxp1, [f]⟩ :: post) none

/-! ### Merging with the successor -/

section Merge

variable {sample : RsampleDefrag} {pre post : List DefragIv} {node : DefragIv}

/-- `defrag_try_merge_with_succ` where nothing follows the node, or only behind a gap. -/
lemma defragTryMergeWithSucc_gap (hivs : sample.ivs = pre ++ node :: post)
    (hord : KeyedList.Ordered min (pre ++ node :: post))
    (hgap : ∀ b ∈ post, node.maxp1 < b.min) :
    defragTryMergeWithSucc sample node = (sample, node, false) := by
  unfold defragTryMergeWithSucc
  split_ifs with hlast
  · rfl
  · have hsucc := findSucc_split hord
    rw [← hivs] at hsucc
    unfold ivs at hsucc
    rw [hsucc]
    cases post with
    | nil => rfl
    | cons b => simp [hgap b mem_cons_self]

/-- `defrag_try_merge_with_succ` where the node reaches its successor `s`: it takes over the end of
`s`, and never asks for another round. -/
lemma defragTryMergeWithSucc_merge {s : DefragIv} (hivs : sample.ivs = pre ++ node :: s :: post)
    (hord : KeyedList.Ordered min (pre ++ node :: s :: post))
    (hlast : sample.lastfrag = lastKey min sample.ivs) (hs : s.min ≤ node.maxp1) :
    ∃ sample', defragTryMergeWithSucc sample node =
        (sample', { node with frags := node.frags ++ s.frags, maxp1 := s.maxp1 }, false) ∧
      sample'.ivs = pre ++ { node with frags := node.frags ++ s.frags, maxp1 := s.maxp1 } :: post ∧
      sample'.lastfrag = lastKey min sample'.ivs ∧
      sample'.sampleinfo = sample.sampleinfo ∧ sample'.seq = sample.seq := by
  have hord' : KeyedList.Ordered min ((pre ++ [node]) ++ s :: post) := by simpa using hord
  have hord'' : KeyedList.Ordered min (pre ++ node :: post) := hord.sublist (by simp)
  have hnotlast : sample.lastfrag ≠ some node.min := by
    rw [hlast, hivs, ne_eq, lastKey_eq_iff hord]
    exact cons_ne_nil s post
  have hsucc : findSucc min node.min sample.fragtree.toList = some s := by
    have := findSucc_split hord
    rwa [← hivs] at this
  have hdelete : (delete min s.min sample.fragtree).toList = pre ++ node :: post := by
    rw [toList_delete s.min (by rw [← hivs] at hord; exact hord)]
    show delete min s.min sample.ivs = _
    have := delete_split hord'
    simpa [hivs] using this
  have hrekey : (if sample.lastfrag = some s.min then some node.min else sample.lastfrag) =
      (lastKey min post).or (some node.min) := by
    have := lastKey_rekey hord' node.min
    rwa [append_assoc, singleton_append, ← hivs, ← hlast] at this
  unfold defragTryMergeWithSucc
  rw [if_neg hnotlast, hsucc]
  dsimp only
  rw [if_neg (by omega), hrekey, decide_eq_false (lt_irrefl s.maxp1)]
  have hlist : (update min node.min { node with frags := node.frags ++ s.frags, maxp1 := s.maxp1 }
      (delete min s.min sample.fragtree)).toList =
      pre ++ { node with frags := node.frags ++ s.frags, maxp1 := s.maxp1 } :: post := by
    rw [toList_update, hdelete, update_split hord'']
  refine ⟨_, rfl, hlist, ?_, rfl, rfl⟩
  show _ = lastKey min (Avl.toList _)
  rw [hlist, lastKey_split]

/-- The merge loop runs one round: it stops at a gap, or takes over the end of the successor. -/
lemma defragMergeLoop_cases {fuel : ℕ} (hfuel : 0 < fuel) (hivs : sample.ivs = pre ++ node :: post)
    (hord : KeyedList.Ordered min (pre ++ node :: post))
    (hlast : sample.lastfrag = lastKey min sample.ivs) :
    ((∀ b ∈ post, node.maxp1 < b.min) ∧ defragMergeLoop fuel sample node = sample) ∨
    ∃ s post', post = s :: post' ∧ s.min ≤ node.maxp1 ∧
      ∃ sample', defragMergeLoop fuel sample node = sample' ∧ sample'.ivs =
          pre ++ { node with frags := node.frags ++ s.frags, maxp1 := s.maxp1 } :: post' ∧
        sample'.lastfrag = lastKey min sample'.ivs ∧
        sample'.sampleinfo = sample.sampleinfo ∧ sample'.seq = sample.seq := by
  obtain ⟨fuel, rfl⟩ := Nat.exists_eq_succ_of_ne_zero hfuel.ne'
  unfold defragMergeLoop
  cases post with
  | nil =>
    rw [defragTryMergeWithSucc_gap hivs hord (by simp)]
    exact .inl ⟨by simp, rfl⟩
  | cons s post =>
    by_cases hgap : node.maxp1 < s.min
    · have hall : ∀ b ∈ s :: post, node.maxp1 < b.min := by
        have hord' : KeyedList.Ordered min ((pre ++ [node]) ++ s :: post) := by simpa using hord
        obtain ⟨-, -, -, hbehind, -⟩ := ordered_append_cons.mp hord'
        exact forall_mem_cons.mpr ⟨hgap, fun b hb ↦ lt_trans hgap (hbehind b hb)⟩
      rw [defragTryMergeWithSucc_gap hivs hord hall]
      exact .inl ⟨hall, rfl⟩
    · obtain ⟨sample', heq, hivs', hlast', hinfo, hseq⟩ :=
        defragTryMergeWithSucc_merge hivs hord hlast (by omega)
      rw [heq]
      exact .inr ⟨s, post, rfl, by omega, sample', rfl, hivs', hlast', hinfo, hseq⟩

end Merge

/-! ### Adding a fragment -/

/-- The record after a fragment: `grown` is the interval that was grown at its end. -/
structure RecordStep (f : Rdata) (info : RsampleInfo) (sample sample' : RsampleDefrag)
    (grown : Option DefragIv) : Prop where
  step : FragStep f sample.ivs sample'.ivs grown
  last : sample'.lastfrag = KeyedList.lastKey DefragIv.min sample'.ivs
  info : sample'.sampleinfo =
    if grown.any (fun p ↦ p.frags = []) then info else sample.sampleinfo
  seq : sample'.seq = sample.seq

section Add

variable {B : ℕ} {sample : RsampleDefrag} {f : Rdata} {info : RsampleInfo}
  {pre post : List DefragIv} {p : DefragIv}

section

variable (h : FragTreeOk B sample)

include h

lemma defragExtendSucc_step {s : DefragIv} (hivs : sample.ivs = pre ++ p :: s :: post)
    (hmin : p.min < f.min) (hbehind : p.maxp1 < f.min)
    (hlt : f.min < s.min) (hs : s.min ≤ f.maxp1) :
    RecordStep f info sample (defragExtendSucc sample s f) none := by
  have hord : KeyedList.Ordered min ((pre ++ [p]) ++ s :: post) := by
    simpa [hivs] using h.list.ordered
  obtain ⟨-, -, hbefore, hafter, -⟩ := ordered_append_cons.mp hord
  obtain ⟨-, -, hbeforep, -, -⟩ :=
    ordered_append_cons.mp (show KeyedList.Ordered _ (pre ++ p :: s :: post) by
      simpa using hord)
  let s' : DefragIv := { s with frags := f :: s.frags, min := f.min }
  let sample' : RsampleDefrag := { sample with
      fragtree := Avl.update min s.min s' sample.fragtree
      lastfrag := if sample.lastfrag = some s.min then some f.min else sample.lastfrag }
  have hsample' : sample'.ivs = (pre ++ [p]) ++ s' :: post := by
    show (Avl.update _ _ _ _).toList = _
    rw [Avl.toList_update]
    show update min s.min s' sample.ivs = _
    rw [hivs, append_cons, update_split hord]
  have hord' : KeyedList.Ordered min ((pre ++ [p]) ++ s' :: post) := by
    refine hord.replace (fun a ha ↦ ?_) fun b hb ↦ lt_trans hlt (hafter b hb)
    rcases mem_append.mp ha with ha | ha
    · exact lt_trans (hbeforep a ha) hmin
    · rw [mem_singleton.mp ha]
      exact hmin
  have hlast : sample'.lastfrag = lastKey min sample'.ivs := by
    rw [hsample', lastKey_split]
    show (if sample.lastfrag = some s.min then some f.min else sample.lastfrag) = _
    rw [h.last, hivs, append_cons, lastKey_rekey hord]
  unfold defragExtendSucc
  by_cases hend : s.maxp1 < f.maxp1
  · rw [if_pos hend]
    let s'' : DefragIv := { s' with maxp1 := f.maxp1 }
    let grown : RsampleDefrag :=
      { sample' with fragtree := Avl.update min f.min s'' sample'.fragtree }
    have hgrown : grown.ivs = (pre ++ [p]) ++ s'' :: post := by
      show (Avl.update _ _ _ _).toList = _
      rw [Avl.toList_update]
      show update min s'.min s'' sample'.ivs = _
      rw [hsample', update_split hord']
    have hlast' : grown.lastfrag = lastKey min grown.ivs := by
      rw [hgrown, lastKey_split]
      rw [hlast, hsample', lastKey_split]
    have hfuel : 0 < sample.fragtree.toList.length := by
      show 0 < sample.ivs.length
      simp [hivs]
    rcases defragMergeLoop_cases hfuel hgrown (hord'.replace_same rfl) hlast' with ⟨hgap, heq⟩ |
      ⟨t, post', rfl, ht, merged, heq, hivs', hlast'', hinfo, hseq⟩
    · rw [heq]
      refine ⟨?_, hlast', rfl, rfl⟩
      rw [hgrown, hivs, ← append_cons]
      exact .extendEnd hbehind hlt hs hend hgap
    · rw [heq]
      refine ⟨?_, hlast'', hinfo, hseq⟩
      rw [hivs', hivs, ← append_cons]
      exact .extendMerge hbehind hlt hs hend ht
  · rw [if_neg hend]
    refine ⟨?_, hlast, rfl, rfl⟩
    rw [hsample', hivs, ← append_cons]
    exact .extend hbehind hlt hs (by omega)

lemma defragPredeq_split (f : Rdata) :
    ∃ p pre post, defragPredeq sample f = some p ∧ sample.ivs = pre ++ p :: post ∧
      p.min ≤ f.min ∧ ∀ b ∈ post, f.min < b.min := by
  have hord := h.list.ordered
  obtain ⟨a, rest, hhead⟩ : ∃ a rest, sample.ivs = a :: rest := by
    cases hivs : sample.ivs with
    | nil => simpa [hivs] using h.list.first
    | cons a rest => exact ⟨a, rest, rfl⟩
  have hzero : a.min = 0 := by simpa [hhead] using h.list.first
  obtain ⟨init, last, hinit⟩ := (eq_nil_or_concat' sample.ivs).resolve_left (by simp [hhead])
  have hlookup : (sample.lastfrag.bind fun k ↦
      lookup min k sample.fragtree.toList) = some last := by
    rw [h.last, hinit, lastKey_concat]
    exact lookup_of_mem hord (show last ∈ sample.ivs by simp [hinit])
  unfold defragPredeq
  rw [hlookup, bind_some]
  split_ifs with hfast
  · exact ⟨last, init, [], rfl, hinit, hfast, by simp⟩
  · cases hpred : lookupPredEq min f.min sample.fragtree.toList with
    | none =>
      have hmem : a ∈ sample.fragtree.toList := by
        show a ∈ sample.ivs
        simp [hhead]
      have := lookupPredEq_eq_none.mp hpred a hmem
      omega
    | some p =>
      obtain ⟨pre, post, hivs, hmin, hlt⟩ := lookupPredEq_eq_some hord hpred
      exact ⟨p, pre, post, rfl, hivs, hmin, hlt⟩

section

variable (hivs : sample.ivs = pre ++ p :: post)
include hivs

lemma defragGrowPredeq_step (hmin : p.min ≤ f.min)
    (hpost : ∀ b ∈ post, f.min < b.min) (hreach : f.min ≤ p.maxp1)
    (hend : p.maxp1 < f.maxp1) :
    RecordStep f info sample (defragGrowPredeq sample p f info) (some p) := by
  have hord := h.list.ordered
  rw [hivs] at hord
  let p' : DefragIv := { p with frags := p.frags ++ [f], maxp1 := f.maxp1 }
  let grown : RsampleDefrag := { sample with
      fragtree := Avl.update min p.min p' sample.fragtree
      sampleinfo := if p.frags = [] then info else sample.sampleinfo }
  have hgrown : grown.ivs = pre ++ p' :: post := by
    show (Avl.update _ _ _ _).toList = _
    rw [Avl.toList_update]
    show update min p.min p' sample.ivs = _
    rw [hivs, update_split hord]
  have hord' : KeyedList.Ordered min (pre ++ p' :: post) := hord.replace_same rfl
  have hlast : grown.lastfrag = lastKey min grown.ivs := by
    rw [hgrown, lastKey_split]
    rw [h.last, hivs, lastKey_split]
  have hfuel : 0 < sample.fragtree.toList.length := by
    show 0 < sample.ivs.length
    simp [hivs]
  show RecordStep f info sample (defragMergeLoop _ grown p') (some p)
  rcases defragMergeLoop_cases hfuel hgrown hord' hlast with ⟨hgap, heq⟩ |
    ⟨s, post', rfl, hs, sample', heq, hivs', hlast', hinfo, hseq⟩
  · rw [heq]
    refine ⟨?_, hlast, by simp [grown], rfl⟩
    rw [hgrown, hivs]
    exact .grow hmin hreach hend hgap
  · rw [heq]
    refine ⟨?_, hlast', by simp [hinfo, grown], hseq⟩
    rw [hivs', hivs]
    exact .growMerge hmin hreach hend (hpost s mem_cons_self) hs

lemma defragRsampleAddiv_step (hmin : p.min < f.min)
    (hbehind : p.maxp1 < f.min) (hlt : ∀ b ∈ post, f.min < b.min)
    (hpost : ∀ b ∈ post, f.maxp1 < b.min) :
    RecordStep f info sample (defragRsampleAddiv sample f) none := by
  have hord := h.list.ordered
  have hivs' : (defragRsampleAddiv sample f).ivs =
      (pre ++ [p]) ++ ⟨f.min, f.maxp1, [f]⟩ :: post := by
    show (Avl.insert _ _ _).toList = _
    rw [toList_insert _ hord]
    show insert min _ sample.ivs = _
    rw [hivs] at hord ⊢
    obtain ⟨-, -, hbefore, -⟩ := ordered_append_cons.mp hord
    rw [append_cons]
    refine insert_split (fun a ha ↦ ?_) hlt
    rcases mem_append.mp ha with ha | ha
    · exact lt_trans (hbefore a ha) hmin
    · rw [mem_singleton.mp ha]
      exact hmin
  refine ⟨?_, ?_, rfl, rfl⟩
  · rw [hivs', hivs, ← append_cons]
    exact .new hmin hbehind hlt hpost
  · rw [hivs', lastKey_split]
    unfold defragRsampleAddiv
    rw [h.last, hivs, lastKey_split]
    rcases eq_nil_or_concat' post with rfl | ⟨init, last, rfl⟩
    · simp [lastKey, hmin]
    · rw [lastKey_concat]
      have hle := (hlt last (by simp)).le
      simp [hle]

/-- The successor `defrag_add_fragment` may extend: the next interval, if the fragment reaches
it. -/
lemma defragSucc_cases (k : ℕ) :
    ((if sample.lastfrag = some p.min then none
      else findSucc min p.min sample.fragtree.toList).filter
        (fun succ ↦ succ.min ≤ k) = none ∧ ∀ b ∈ post, k < b.min) ∨
    ∃ s post', post = s :: post' ∧ s.min ≤ k ∧ (if sample.lastfrag = some p.min then none
        else findSucc min p.min sample.fragtree.toList).filter
          (fun succ ↦ succ.min ≤ k) = some s := by
  have hord := h.list.ordered
  have hlast := h.last
  rw [hivs] at hord hlast
  have hsucc : findSucc min p.min sample.fragtree.toList = post.head? := by
    have := findSucc_split hord
    rwa [← hivs] at this
  rw [hlast, if_congr (lastKey_eq_iff hord) rfl rfl, hsucc]
  cases post with
  | nil => exact .inl ⟨rfl, by simp⟩
  | cons s post =>
    have hord' : KeyedList.Ordered min ((pre ++ [p]) ++ s :: post) := by simpa using hord
    obtain ⟨-, -, -, hbehind, -⟩ := ordered_append_cons.mp hord'
    by_cases hs : s.min ≤ k
    · exact .inr ⟨s, post, rfl, hs, if_pos (by simpa using hs)⟩
    · refine .inl ⟨if_neg (by simpa using hs), forall_mem_cons.mpr ⟨by omega, fun b hb ↦ ?_⟩⟩
      have := hbehind b hb
      omega

end

/-- Everything `defrag_add_fragment` can do. It follows a null pointer only for a fragment that
starts beyond `B`, at the start of another. -/
lemma defragAddFragment_step (hf : WfFrag B f) :
    (defragAddFragment sample f info = none ∧ B < f.min) ∨
    ∃ sample' grown, defragAddFragment sample f info =
        some (sample', grown.isSome && isComplete sample') ∧
      RecordStep f info sample sample' grown := by
  have hord := h.list.ordered
  obtain ⟨p, pre, post, hpredeq, hivs, hmin, hlt⟩ := defragPredeq_split h f
  have hp := h.list.bounded p (by simp [hivs])
  unfold defragAddFragment
  rw [hpredeq]
  dsimp only
  split
  case isTrue hcontained =>
    refine .inr ⟨sample, none, rfl, ?_, h.last, rfl, rfl⟩
    rw [hivs]
    exact .contained hmin hcontained
  split
  case isTrue hreach =>
    exact .inr ⟨_, some p, rfl, defragGrowPredeq_step h hivs hmin hlt hreach (by omega)⟩
  rcases defragSucc_cases h hivs f.maxp1 with ⟨hnone, hpost⟩ | ⟨s, post', rfl, hs, hsome⟩
  · rw [hnone]
    split_ifs with htaken
    · left
      refine ⟨rfl, ?_⟩
      obtain ⟨q, hq⟩ := isSome_iff_exists.mp htaken
      obtain ⟨hmem, hkey⟩ := lookup_eq_some hq
      have hqp : q = p := by
        obtain ⟨-, -, hbefore, -, -⟩ := ordered_append_cons.mp (hivs ▸ hord)
        have hmem : q ∈ pre ++ p :: post := hivs ▸ hmem
        rcases mem_middle.mp hmem with hq | rfl | hq
        · have := hbefore q hq
          omega
        · rfl
        · have := hlt q hq
          omega
      rw [hqp] at hkey
      omega
    · have hne : p.min ≠ f.min := by
        intro heq
        have hlookup : lookup min p.min sample.fragtree.toList = some p :=
          lookup_of_mem hord (show p ∈ sample.ivs by simp [hivs])
        rw [← heq, hlookup] at htaken
        exact htaken rfl
      exact .inr ⟨_, none, rfl, defragRsampleAddiv_step h hivs (by omega) (by omega) hlt hpost⟩
  · rw [hsome]
    have hslt := hlt s mem_cons_self
    unfold WfFrag at hf
    exact .inr ⟨_, none, rfl, defragExtendSucc_step h hivs (by omega) (by omega) hslt hs⟩

end

end Add

/-! ### The shape is kept -/

variable (mid : List DefragIv) {s : DefragIv}

namespace FragListOk

/-- A segment of the intervals is replaced by one interval that fits in its place. -/
lemma replace (h : FragListOk B (pre ++ (mid ++ post)))
    (hpre : ∀ a ∈ pre, a.maxp1 < c.min ∧ a.min < c.min)
    (hpost : ∀ b ∈ post, c.maxp1 < b.min ∧ c.min < b.min)
    (hc : c.maxp1 ≤ B ∧ (c.min ≤ c.maxp1 ∨ B < c.min)) (hfirst : pre = [] → c.min = 0) :
    FragListOk B (pre ++ c :: post) where
  ordered := by
    have hord := pairwise_append.mp h.ordered
    obtain ⟨hordPre, hordRest, hcross⟩ := hord
    refine ordered_append_cons.mpr ⟨hordPre, (pairwise_append.mp hordRest).2.1,
      fun a ha ↦ (hpre a ha).2, fun b hb ↦ (hpost b hb).2, fun a ha b hb ↦ ?_⟩
    exact hcross a ha b (mem_append_right mid hb)
  separated := h.separated.replace mid (fun a ha ↦ (hpre a ha).1) fun b hb ↦ (hpost b hb).1
  bounded := by
    have hbounded := h.bounded
    simp only [forall_mem_append, forall_mem_cons] at hbounded ⊢
    exact ⟨hbounded.1, hc, hbounded.2.2⟩
  first := by
    cases pre with
    | nil => simp [hfirst rfl]
    | cons => simpa using h.first

/-- The replacement of a segment that starts with `p` by an interval with the same start. -/
lemma replace_same (h : FragListOk B (pre ++ (p :: mid ++ post))) (hc : c.min = p.min)
    (hend : c.maxp1 ≤ B ∧ (c.min ≤ c.maxp1 ∨ B < c.min)) (hpost : ∀ b ∈ post, c.maxp1 < b.min) :
    FragListOk B (pre ++ c :: post) := by
  obtain ⟨-, -, hbefore, hafter, -⟩ := ordered_append_cons.mp h.ordered
  obtain ⟨-, -, hcross⟩ := separated_append.mp h.separated
  refine h.replace (p :: mid) (fun a ha ↦ ?_) (fun b hb ↦ ?_) hend ?_
  · rw [hc]
    exact ⟨hcross a ha p mem_cons_self, hbefore a ha⟩
  · rw [hc]
    exact ⟨hpost b hb, hafter b (mem_append_right mid hb)⟩
  · rintro rfl
    simpa [hc] using h.first

/-- The replacement of a segment behind `p`, possibly empty, by an interval that starts behind the
end of `p`. -/
lemma replace_behind (h : FragListOk B (pre ++ p :: (mid ++ post)))
    (hmin : p.min < c.min) (hbehind : p.maxp1 < c.min)
    (hend : c.maxp1 ≤ B ∧ (c.min ≤ c.maxp1 ∨ B < c.min))
    (hpost : ∀ b ∈ post, c.maxp1 < b.min ∧ c.min < b.min) :
    FragListOk B (pre ++ p :: c :: post) := by
  obtain ⟨-, -, hbefore, -⟩ := ordered_append_cons.mp h.ordered
  obtain ⟨-, -, hcross⟩ := separated_append.mp h.separated
  rw [append_cons] at h ⊢
  refine h.replace mid (fun a ha ↦ ?_) hpost hend (by simp)
  rcases mem_append.mp ha with ha | ha
  · exact ⟨lt_trans (hcross a ha p mem_cons_self) hmin, lt_trans (hbefore a ha) hmin⟩
  · rw [mem_singleton.mp ha]
    exact ⟨hbehind, hmin⟩

/-- Where a fragment reaches an interval `s`, both are proper, and so is the one before `s`. -/
lemma proper (h : FragListOk B (pre ++ p :: s :: post)) {k : ℕ}
    (hk : k ≤ B) (hs : s.min ≤ k) : p.min ≤ p.maxp1 ∧ s.min ≤ s.maxp1 ∧ p.min < s.min := by
  obtain ⟨-, -, -, hafter, -⟩ := ordered_append_cons.mp h.ordered
  have hps := hafter s mem_cons_self
  have hp := (h.bounded p (by simp)).2
  have hs' := (h.bounded s (by simp)).2
  omega

lemma after (h : FragListOk B (pre ++ p :: s :: post)) : ∀ b ∈ post, s.maxp1 < b.min := by
  obtain ⟨-, hrest, -⟩ := separated_append.mp h.separated
  obtain ⟨-, hrest⟩ := separated_cons.mp hrest
  exact (separated_cons.mp hrest).1

end FragListOk

open FragListOk

lemma FragStep.listOk {l l' : List DefragIv} (h : FragListOk B l) (hf : WfFrag B f)
    (hstep : FragStep f l l' grown) : FragListOk B l' := by
  obtain ⟨hfB, hfproper⟩ := hf
  cases hstep with
  | contained => exact h
  | @grow _ _ _ _ _ _ hpost =>
    exact replace_same [] h rfl ⟨hfB, .inl (by dsimp only; omega)⟩ hpost
  | @growMerge _ _ _ s _ _ _ _ hs =>
    obtain ⟨-, hsproper, hps⟩ := h.proper hfB hs
    refine replace_same [s] h rfl ⟨(h.bounded s (by simp)).1, .inl ?_⟩ h.after
    dsimp only
    omega
  | @extend _ _ _ s hbehind _ hs =>
    obtain ⟨hpproper, hsproper, -⟩ := h.proper hfB hs
    have hafter := h.after
    refine replace_behind [s] h (by dsimp only; omega) hbehind
      ⟨(h.bounded s (by simp)).1, .inl (by dsimp only; omega)⟩ fun b hb ↦ ⟨hafter b hb, ?_⟩
    have := hafter b hb
    dsimp only
    omega
  | @extendEnd _ _ _ s hbehind _ hs _ hpost =>
    obtain ⟨hpproper, hsproper, -⟩ := h.proper hfB hs
    refine replace_behind [s] h (by dsimp only; omega) hbehind
      ⟨hfB, .inl (by dsimp only; omega)⟩ fun b hb ↦ ⟨hpost b hb, ?_⟩
    have := hpost b hb
    dsimp only
    omega
  | @extendMerge pre post p s t hbehind _ hs _ ht =>
    obtain ⟨hpproper, -, -⟩ := h.proper hfB hs
    have h' : FragListOk B ((pre ++ [p]) ++ s :: t :: post) := by simpa using h
    obtain ⟨hsproper, htproper, hst⟩ := h'.proper hfB ht
    have hafter := h'.after
    refine replace_behind [s, t] h (by dsimp only; omega) hbehind
      ⟨(h.bounded t (by simp)).1, .inl (by dsimp only; omega)⟩ fun b hb ↦ ⟨hafter b hb, ?_⟩
    have := hafter b hb
    dsimp only
    omega
  | @new _ _ _ hmin hbehind hlt hpost =>
    refine replace_behind [] h hmin hbehind ⟨hfB, ?_⟩ fun b hb ↦
      ⟨hpost b hb, hlt b hb⟩
    dsimp only
    omega

lemma RecordStep.treeOk {sample' : RsampleDefrag} (h : FragTreeOk B sample) (hf : WfFrag B f)
    (hstep : RecordStep f info sample sample' grown) : FragTreeOk B sample' :=
  ⟨hstep.step.listOk h.list hf, hstep.last⟩

lemma defragRsampleNew_ivs (f : Rdata) (info : RsampleInfo) : (defragRsampleNew f info).ivs =
      if 0 < f.min then [⟨0, 0, []⟩, ⟨f.min, f.maxp1, [f]⟩] else [⟨f.min, f.maxp1, [f]⟩] := by
  unfold defragRsampleNew defragRsampleAddiv ivs
  split_ifs with hmin
  · show (insert min ⟨f.min, f.maxp1, [f]⟩ (.node .nil ⟨0, 0, []⟩ .nil 1)).toList = _
    rw [toList_insert _ (by simp [KeyedList.Ordered])]
    simp [KeyedList.insert]
  · rfl

lemma defragRsampleNew_treeOk (hf : WfFrag B f) (info : RsampleInfo) :
    FragTreeOk B (defragRsampleNew f info) := by
  have hivs := defragRsampleNew_ivs f info
  unfold WfFrag at hf
  refine ⟨?_, ?_⟩
  · rw [hivs]
    split_ifs with hmin
    · refine ⟨by simp [KeyedList.Ordered, hmin], ?_, ?_, rfl⟩
      · simp [IntervalList.Separated, hmin]
      · simp only [forall_mem_cons]
        exact ⟨by omega, by omega, by simp⟩
    · refine ⟨by simp [KeyedList.Ordered], ?_, ?_, ?_⟩
      · simp [IntervalList.Separated]
      · simp only [forall_mem_cons]
        exact ⟨by omega, by simp⟩
      · simp
        omega
  · rw [hivs]
    split_ifs <;> rfl

end OpenSplice.Ddsi
