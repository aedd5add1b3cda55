import OpenSplice.Ddsi.Defrag.Steps

/-!
# The bytes a record has

The interval tree of a record is meant to be the union of the byte ranges of the fragments added to
it. It is, as long as no fragment runs past the end of an interval that it makes another one absorb:
`defrag_try_merge_with_succ` gives the absorbing interval the end of the absorbed one, also where it
reached further itself. `endsInside` picks the intervals that end within a fragment. If there is at
most one of them, the fragment is recorded; if there are two, the byte at the end of the second one
is received and not recorded (`FragStep.recorded_or_lost`).
-/

set_option autoImplicit false

namespace OpenSplice.Ddsi

open Library Utilities List IntervalList KeyedList

variable {l : List DefragIv} {f : Rdata} {B : ℕ} {sample : RsampleDefrag} {fs : List Rdata}
  {info : RsampleInfo}

abbrev IvCovers (l : List DefragIv) (x : ℕ) : Prop :=
  IntervalList.Covers DefragIv.min DefragIv.maxp1 l x

def FragsCover (fs : List Rdata) (x : ℕ) : Prop := ∃ f ∈ fs, f.min ≤ x ∧ x < f.maxp1

def endsInside (f : Rdata) (a : DefragIv) : Bool :=
  decide (f.min ≤ a.maxp1) && decide (a.maxp1 < f.maxp1)

def keepsEnds (sample : RsampleDefrag) (f : Rdata) : Bool :=
  decide (sample.ivs.countP (endsInside f) ≤ 1)

/-! ### One fragment -/

def Proper (l : List DefragIv) : Prop := ∀ a ∈ l, a.min ≤ a.maxp1

/-- Every interval is non-empty, except for a sentinel `[0, 0)`. -/
def NonemptyIvs (l : List DefragIv) : Prop :=
  ∀ a ∈ l, a.min < a.maxp1 ∨ (a.min = 0 ∧ a.maxp1 = 0)

lemma NonemptyIvs.proper (h : NonemptyIvs l) : Proper l := by
  intro a ha
  have := h a ha
  omega

lemma countP_endsInside_before (h : ∀ a ∈ l, a.maxp1 < f.min) : l.countP (endsInside f) = 0 := by
  refine countP_eq_zero.mpr fun a ha ↦ ?_
  have := h a ha
  simp [endsInside]
  omega

lemma countP_endsInside_after (h : ∀ a ∈ l, f.maxp1 ≤ a.maxp1) : l.countP (endsInside f) = 0 := by
  refine countP_eq_zero.mpr fun a ha ↦ ?_
  have := h a ha
  simp [endsInside]
  omega

lemma endsInside_iff {a : DefragIv} : endsInside f a ↔ f.min ≤ a.maxp1 ∧ a.maxp1 < f.maxp1 := by
  simp [endsInside]

def Recorded (f : Rdata) (l l' : List DefragIv) : Prop :=
  ∀ x, IvCovers l' x ↔ IvCovers l x ∨ (f.min ≤ x ∧ x < f.maxp1)

def Lost (f : Rdata) (l' : List DefragIv) : Prop :=
  ∃ x, f.min ≤ x ∧ x < f.maxp1 ∧ ¬ IvCovers l' x

section Step

variable {B : ℕ} {f : Rdata} {pre post : List DefragIv} {p s c : DefragIv} {l l' : List DefragIv}
  {grown : Option DefragIv}

/-- An interval `p` that a fragment extends takes over the end of the interval `s` behind it: the
fragment is recorded if it does not reach beyond `s`, and otherwise the byte at the end of `s` is
lost. The first of the two ends inside the fragment. -/
lemma recorded_or_lost_of_merge (hsep : IntervalList.Separated DefragIv.min DefragIv.maxp1
      (pre ++ p :: s :: post)) (hp : Proper (pre ++ p :: s :: post))
    (hpre : ∀ a ∈ pre, a.maxp1 < f.min) (hmin : c.min = min p.min f.min) (hend : c.maxp1 = s.maxp1)
    (hreach : f.min ≤ p.maxp1) (hlt : p.maxp1 < f.maxp1) (hs : s.min ≤ f.maxp1) :
    ((pre ++ p :: s :: post).countP (endsInside f) ≤ 1 ∧
      Recorded f (pre ++ p :: s :: post) (pre ++ c :: post)) ∨
    (2 ≤ (pre ++ p :: s :: post).countP (endsInside f) ∧ Lost f (pre ++ c :: post)) := by
  obtain ⟨-, hrest, hcross⟩ := separated_append.mp hsep
  obtain ⟨hps, hrest⟩ := separated_cons.mp hrest
  obtain ⟨hsb, -⟩ := separated_cons.mp hrest
  have hps := hps s mem_cons_self
  have hss := hp s (by simp)
  have hpcount : endsInside f p := endsInside_iff.mpr ⟨hreach, hlt⟩
  rw [countP_append, countP_cons_of_pos hpcount, countP_endsInside_before hpre]
  by_cases hover : s.maxp1 < f.maxp1
  · have hscount : endsInside f s := endsInside_iff.mpr ⟨by omega, hover⟩
    right
    rw [countP_cons_of_pos hscount]
    refine ⟨by omega, s.maxp1, by omega, hover, ?_⟩
    simp only [covers_append, covers_cons, hend, lt_irrefl, and_false, false_or, not_or]
    refine ⟨?_, ?_⟩
    · rintro ⟨a, ha, -, hax⟩
      have := hpre a ha
      omega
    · rintro ⟨b, hb, hbx, -⟩
      have := hsb b hb
      omega
  · have hscount : ¬ endsInside f s := fun h ↦ hover (endsInside_iff.mp h).2
    left
    rw [countP_cons_of_neg hscount, countP_endsInside_after fun b hb ↦ ?_]
    · refine ⟨by omega, fun x ↦ covers_replace [p, s] ?_⟩
      simp
      omega
    · have := hsb b hb
      have := hp b (by simp [hb])
      omega

/-- A segment with at most one interval that ends inside the fragment is replaced by the union. -/
lemma recorded_of_replace (mid : List DefragIv) (hpre : ∀ a ∈ pre, a.maxp1 < f.min)
    (hmid : mid.countP (endsInside f) ≤ 1) (hpost : ∀ b ∈ post, f.maxp1 ≤ b.maxp1)
    (hc : ∀ x, c.min ≤ x ∧ x < c.maxp1 ↔ IvCovers mid x ∨ (f.min ≤ x ∧ x < f.maxp1)) :
    (pre ++ (mid ++ post)).countP (endsInside f) ≤ 1 ∧
      Recorded f (pre ++ (mid ++ post)) (pre ++ c :: post) := by
  rw [countP_append, countP_append, countP_endsInside_before hpre, countP_endsInside_after hpost]
  exact ⟨by omega, fun x ↦ covers_replace mid (hc x)⟩

variable (h : FragListOk B l)
include h

/-- A fragment is recorded, or loses a byte, by how many intervals end inside it. -/
lemma FragStep.recorded_or_lost (hp : Proper l) (hstep : FragStep f l l' grown) :
    (l.countP (endsInside f) ≤ 1 ∧ Recorded f l l') ∨
      (2 ≤ l.countP (endsInside f) ∧ Lost f l') := by
  have hsep := h.separated
  have hbefore : ∀ {pre post : List DefragIv} {p : DefragIv}, l = pre ++ p :: post →
      p.min ≤ f.min → ∀ a ∈ pre, a.maxp1 < f.min := by
    rintro pre post p rfl hmin a ha
    exact lt_of_lt_of_le ((separated_append.mp hsep).2.2 a ha p mem_cons_self) hmin
  have hbefore' : ∀ {pre post : List DefragIv} {p : DefragIv}, l = pre ++ p :: post →
      p.maxp1 < f.min → ∀ a ∈ pre ++ [p], a.maxp1 < f.min := by
    rintro pre post p rfl hbehind a ha
    have hpp := hp p (by simp)
    rcases mem_append.mp ha with ha | ha
    · have := (separated_append.mp hsep).2.2 a ha p mem_cons_self
      omega
    · rw [mem_singleton.mp ha]
      exact hbehind
  have hbeyond : ∀ b ∈ l, f.maxp1 < b.min → f.maxp1 ≤ b.maxp1 := fun b hb hlt ↦
    hlt.le.trans (hp b hb)
  cases hstep with
  | @contained _ _ p hmin hend =>
    obtain ⟨-, hrest, -⟩ := separated_append.mp hsep
    have hafter := (separated_cons.mp hrest).1
    refine .inl (recorded_of_replace [p] (hbefore rfl hmin) countP_le_length
      (fun b hb ↦ hbeyond b (by simp [hb]) (hend.trans_lt (hafter b hb))) fun x ↦ ?_)
    simp
    omega
  | @grow _ _ p hmin _ _ hpost =>
    refine .inl (recorded_of_replace [p] (hbefore rfl hmin) countP_le_length
      (fun b hb ↦ hbeyond b (by simp [hb]) (hpost b hb)) fun x ↦ ?_)
    simp
    omega
  | @growMerge _ _ _ _ hmin hreach hend _ hs =>
    refine recorded_or_lost_of_merge hsep hp (hbefore rfl hmin) ?_ rfl hreach hend hs
    dsimp only
    omega
  | @extend pre post p s hbehind _ _ hend =>
    rw [append_cons pre p (s :: post), append_cons pre p (_ :: post)]
    refine .inl (recorded_of_replace [s] (hbefore' rfl hbehind) countP_le_length
      (fun b hb ↦ hbeyond b (by simp [hb]) (hend.trans_lt (h.after b hb))) fun x ↦ ?_)
    simp
    omega
  | @extendEnd pre post p s hbehind _ _ _ hpost =>
    rw [append_cons pre p (s :: post), append_cons pre p (_ :: post)]
    refine .inl (recorded_of_replace [s] (hbefore' rfl hbehind) countP_le_length
      (fun b hb ↦ hbeyond b (by simp [hb]) (hpost b hb)) fun x ↦ ?_)
    simp
    omega
  | @extendMerge pre post p s t hbehind _ _ hend ht =>
    have hss := hp s (by simp)
    have hpre := hbefore' rfl hbehind
    rw [append_cons pre p (s :: t :: post)] at hsep hp ⊢
    rw [append_cons pre p (_ :: post)]
    refine recorded_or_lost_of_merge hsep hp hpre ?_ rfl (by omega) hend ht
    dsimp only
    omega
  | @new pre post p _ hbehind _ hpost =>
    rw [append_cons pre p post, append_cons pre p (_ :: post)]
    exact .inl (recorded_of_replace [] (hbefore' rfl hbehind) (by simp)
      (fun b hb ↦ hbeyond b (by simp [hb]) (hpost b hb)) (by simp))

lemma FragStep.nonempty (hp : NonemptyIvs l)
    (hf : f.min < f.maxp1) (hstep : FragStep f l l' grown) : NonemptyIvs l' := by
  unfold NonemptyIvs at hp ⊢
  cases hstep with
  | contained => exact hp
  | grow =>
    simp only [forall_mem_append, forall_mem_cons] at hp ⊢
    exact ⟨hp.1, by omega, hp.2.2⟩
  | growMerge =>
    simp only [forall_mem_append, forall_mem_cons] at hp ⊢
    exact ⟨hp.1, by omega, hp.2.2.2⟩
  | extend | extendEnd =>
    simp only [forall_mem_append, forall_mem_cons] at hp ⊢
    exact ⟨hp.1, hp.2.1, by omega, hp.2.2.2⟩
  | @extendMerge _ _ _ _ t =>
    have hst := h.after t mem_cons_self
    simp only [forall_mem_append, forall_mem_cons] at hp ⊢
    exact ⟨hp.1, hp.2.1, by omega, hp.2.2.2.2⟩
  | new =>
    simp only [forall_mem_append, forall_mem_cons] at hp ⊢
    exact ⟨hp.1, hp.2.1, by omega, hp.2.2⟩

/-- A fragment that grows no interval at its end was known already, or leaves a byte before it
missing. -/
lemma FragStep.of_not_grown (h' : FragListOk B l') (hp : Proper l) (hstep : FragStep f l l' none) :
    (l' = l ∧ ∀ x, f.min ≤ x → x < f.maxp1 → IvCovers l x) ∨ ∃ x < f.min, ¬ IvCovers l' x := by
  have hmissing : ∀ {pre post : List DefragIv} {p : DefragIv}, l' = pre ++ p :: post →
      p ∈ l → p.maxp1 < f.min → ∃ x < f.min, ¬ IvCovers l' x := by
    rintro pre post p rfl hmem hbehind
    obtain ⟨-, hrest, hcross⟩ := separated_append.mp h'.separated
    have hafter := (separated_cons.mp hrest).1
    have hpp := hp p hmem
    refine ⟨p.maxp1, hbehind, ?_⟩
    rintro ⟨a, ha, hmin, hmax⟩
    rcases mem_middle.mp ha with ha | rfl | ha
    · have := hcross a ha p mem_cons_self
      omega
    · omega
    · have := hafter a ha
      omega
  cases hstep with
  | @contained _ _ p => exact .inl ⟨rfl, fun x hx hlt ↦ ⟨p, by simp, by omega, by omega⟩⟩
  | extend hbehind
  | extendEnd hbehind
  | extendMerge hbehind
  | new _ hbehind => exact .inr (hmissing rfl (by simp) hbehind)

end Step

/-! ### The account of a record -/

/-- The intervals of the record are the union of the fragments `fs`: they cover the same bytes,
they are separated and none but the sentinel is empty, and `lastfrag` is the last one. -/
structure TreeIsUnion (fs : List Rdata) (sample : RsampleDefrag) : Prop where
  covers : ∀ x, IvCovers sample.ivs x ↔ FragsCover fs x
  separated : sample.ivs.Pairwise fun a b ↦ a.maxp1 < b.min
  nonempty : NonemptyIvs sample.ivs
  last : ∃ last ∈ sample.ivs, sample.lastfrag = some last.min ∧
    ∀ a ∈ sample.ivs, a.min ≤ last.min

/-- The fragments cover every byte below `size`. -/
def CoversSize (fs : List Rdata) (size : ℕ) : Prop := ∀ x < size, FragsCover fs x

/-- The fragments lie within `size`. -/
def WithinSize (fs : List Rdata) (size : ℕ) : Prop := ∀ f ∈ fs, f.maxp1 ≤ size

/-- What holds of a record made from the fragments `fs` as long as no fragment was lost and the
sample has not been reported. -/
structure RecordInv (B : ℕ) (fs : List Rdata) (sample : RsampleDefrag) : Prop where
  tree : FragTreeOk B sample
  nonempty : NonemptyIvs sample.ivs
  covers : ∀ x, IvCovers sample.ivs x ↔ FragsCover fs x
  incomplete : WithinSize fs sample.sampleinfo.size → ¬ CoversSize fs sample.sampleinfo.size

section

variable (h : FragTreeOk B sample)
include h

lemma FragTreeOk.exists_last :
    ∃ last ∈ sample.ivs, sample.lastfrag = some last.min ∧ ∀ a ∈ sample.ivs, a.min ≤ last.min := by
  have hne : sample.ivs ≠ [] := by
    intro hnil
    simpa [hnil] using h.list.first
  obtain ⟨init, last, hivs⟩ := (eq_nil_or_concat' sample.ivs).resolve_left hne
  obtain ⟨-, -, hbefore, -⟩ := ordered_append_cons.mp (hivs ▸ h.list.ordered)
  refine ⟨last, by simp [hivs], by rw [h.last, hivs, lastKey_concat], fun a ha ↦ ?_⟩
  rw [hivs] at ha
  rcases mem_append.mp ha with ha | ha
  · exact (hbefore a ha).le
  · rw [mem_singleton.mp ha]

/-- The parts of `TreeIsUnion` that hold of a record whether or not it covers the fragments. -/
lemma treeIsUnion_iff (hnonempty : NonemptyIvs sample.ivs) :
    TreeIsUnion fs sample ↔ ∀ x, IvCovers sample.ivs x ↔ FragsCover fs x :=
  ⟨fun hunion ↦ hunion.covers, fun hcovers ↦
    ⟨hcovers, h.list.separated, hnonempty, h.exists_last⟩⟩

/-- `is_complete` tells whether the fragments cover the sample. The tree then is its root, since an
interval behind the first one would lie beyond the end of the sample. -/
lemma isComplete_iff (hnonempty : NonemptyIvs sample.ivs)
    (hcovers : ∀ x, IvCovers sample.ivs x ↔ FragsCover fs x)
    (hwithin : WithinSize fs sample.sampleinfo.size) :
    isComplete sample ↔ CoversSize fs sample.sampleinfo.size := by
  rw [isComplete_eq_true]
  constructor
  · rintro ⟨iv, hroot, hmin, hend⟩ x hx
    exact (hcovers x).mp ⟨iv, Avl.root_mem hroot, by omega, by omega⟩
  · intro hall
    cases hivs : sample.ivs with
    | nil => simpa [hivs] using h.list.first
    | cons a rest =>
      have hzero : a.min = 0 := by simpa [hivs] using h.list.first
      have hbehind : ∀ b ∈ rest, a.maxp1 < b.min := (separated_cons.mp (hivs ▸ h.list.separated)).1
      have hend : sample.sampleinfo.size ≤ a.maxp1 := by
        by_contra hlt
        obtain ⟨b, hb, hmin, hmax⟩ := (hcovers a.maxp1).mpr (hall a.maxp1 (by omega))
        rw [hivs] at hb
        rcases mem_cons.mp hb with rfl | hb
        · omega
        · have := hbehind b hb
          omega
      have hrest : rest = [] := by
        refine eq_nil_iff_forall_not_mem.mpr fun b hb ↦ ?_
        have hlt := hbehind b hb
        have hb' := hnonempty b (by simp [hivs, hb])
        obtain ⟨f, hf, -, hmax⟩ := (hcovers b.min).mp ⟨b, by simp [hivs, hb], le_rfl, by omega⟩
        have := hwithin f hf
        omega
      subst hrest
      exact ⟨a, Avl.root_of_toList_singleton hivs, hzero, hend⟩

end

lemma fragsCover_concat {x : ℕ} :
    FragsCover (fs ++ [f]) x ↔ FragsCover fs x ∨ (f.min ≤ x ∧ x < f.maxp1) := by
  simp only [FragsCover, mem_append, mem_singleton, or_and_right, exists_or, exists_eq_left]

/-- A fragment that is recorded: the record stays the union of the fragments, and reports the
sample exactly if it is covered now. -/
lemma RecordInv.step {B : ℕ} {fs : List Rdata} {f : Rdata}
    {sample sample' : RsampleDefrag} {grown : Option DefragIv} (h : RecordInv B fs sample)
    (hf : WfFrag B f) (hlt : f.min < f.maxp1)
    (hstep : RecordStep f info sample sample' grown)
    (hrecorded : Recorded f sample.ivs sample'.ivs) :
    FragTreeOk B sample' ∧ NonemptyIvs sample'.ivs ∧
    (∀ x, IvCovers sample'.ivs x ↔ FragsCover (fs ++ [f]) x) ∧
    (WithinSize (fs ++ [f]) sample'.sampleinfo.size → ((grown.isSome && isComplete sample') ↔
        CoversSize (fs ++ [f]) sample'.sampleinfo.size)) := by
  have htree := hstep.treeOk h.tree hf
  have hnonempty := hstep.step.nonempty h.tree.list h.nonempty hlt
  have hcovers : ∀ x, IvCovers sample'.ivs x ↔ FragsCover (fs ++ [f]) x := fun x ↦ by
    rw [hrecorded x, fragsCover_concat, h.covers x]
  refine ⟨htree, hnonempty, hcovers, fun hwithin ↦ ?_⟩
  cases grown with
  | some =>
    rw [Option.isSome_some, Bool.true_and]
    exact isComplete_iff htree hnonempty hcovers hwithin
  | none =>
    simp only [Option.isSome_none, Bool.false_and, Bool.false_eq_true, false_iff]
    have hinfo : sample'.sampleinfo = sample.sampleinfo := hstep.info
    rw [hinfo] at hwithin ⊢
    intro hall
    rcases hstep.step.of_not_grown h.tree.list htree.list h.nonempty.proper with
      ⟨heq, hknown⟩ | ⟨x, hx, hmissing⟩
    · refine h.incomplete (fun g hg ↦ hwithin g (mem_append_left [f] hg)) fun x hx ↦ ?_
      rw [← h.covers, ← heq, hcovers]
      exact hall x hx
    · have hfsize := hwithin f (by simp)
      exact hmissing ((hcovers x).mpr (hall x (by omega)))

/-! ### Runs -/

/-- The record accounts for the fragments `fs` it was made from, and goes on to do so while the
fragments of a run are added, until the sample is reported. It is reported with the fragment that
makes the fragments cover the sample, if they all are of it. -/
def DefragFaithful (fs : List Rdata) (sample : RsampleDefrag) : List (Rdata × RsampleInfo) → Prop
  | [] => TreeIsUnion fs sample
  | (f, info) :: rest =>
    TreeIsUnion fs sample ∧
    ∃ sample' done, defragAddFragment sample f info = some (sample', done) ∧
      TreeIsUnion (fs ++ [f]) sample' ∧
      (WithinSize (fs ++ [f]) sample'.sampleinfo.size →
        (done = true ↔ CoversSize (fs ++ [f]) sample'.sampleinfo.size)) ∧
      (done = false → DefragFaithful (fs ++ [f]) sample' rest)

def keepsRun (sample : RsampleDefrag) : List (Rdata × RsampleInfo) → Bool
  | [] => true
  | (f, info) :: rest =>
    keepsEnds sample f &&
      match defragAddFragment sample f info with
      | none => true
      | some (sample', done) => done || keepsRun sample' rest

lemma RecordInv.treeIsUnion (h : RecordInv B fs sample) : TreeIsUnion fs sample :=
  (treeIsUnion_iff h.tree h.nonempty).mpr h.covers

/-- A lost byte is a byte of the fragments that the record does not cover. -/
lemma Lost.not_treeIsUnion (h : Lost f sample.ivs) : ¬ TreeIsUnion (fs ++ [f]) sample := by
  obtain ⟨x, hmin, hmax, hmissing⟩ := h
  intro hunion
  exact hmissing ((hunion.covers x).mpr (fragsCover_concat.mpr (.inr ⟨hmin, hmax⟩)))

lemma RecordInv.faithful_iff {rest : List (Rdata × RsampleInfo)}
    (hrest : ∀ f ∈ rest, f.1.min < f.1.maxp1 ∧ f.1.maxp1 ≤ B) :
    ∀ {fs : List Rdata} {sample : RsampleDefrag}, RecordInv B fs sample →
      (DefragFaithful fs sample rest ↔ keepsRun sample rest) := by
  induction rest with
  | nil =>
    intro fs sample h
    simp only [DefragFaithful, keepsRun, iff_true]
    exact h.treeIsUnion
  | cons f _ ih =>
    obtain ⟨f, info⟩ := f
    intro fs sample h
    obtain ⟨⟨hlt, hB⟩, hrest⟩ := forall_mem_cons.mp hrest
    have hf : WfFrag B f := ⟨hB, .inl hlt⟩
    simp only [DefragFaithful, keepsRun, Bool.and_eq_true, keepsEnds, decide_eq_true_eq]
    rcases defragAddFragment_step h.tree hf with ⟨-, hwild⟩ | ⟨sample', grown, heq, hstep⟩
    · dsimp only at hlt hB
      omega
    rw [heq]
    rcases hstep.step.recorded_or_lost h.tree.list h.nonempty.proper with
      ⟨hone, hrecorded⟩ | ⟨htwo, hlost⟩
    · obtain ⟨htree, hnonempty, hcovers, hdone⟩ := h.step hf hlt hstep hrecorded
      have hunion := (treeIsUnion_iff htree hnonempty).mpr hcovers
      cases hcomplete : (grown.isSome && isComplete sample') with
      | true =>
        simp only [Bool.true_or, and_true, hone, iff_true]
        refine ⟨h.treeIsUnion, sample', true, rfl, hunion, hcomplete ▸ hdone, by simp⟩
      | false =>
        have hinv : RecordInv B (fs ++ [f]) sample' :=
          ⟨htree, hnonempty, hcovers, fun hwithin hall ↦ by
            simpa [hcomplete] using (hdone hwithin).mpr hall⟩
        simp only [Bool.false_or, hone, true_and]
        rw [← ih hrest hinv]
        constructor
        · rintro ⟨-, s, done, hs, -, -, hgo⟩
          obtain ⟨rfl, rfl⟩ := Prod.mk.inj (Option.some.inj hs)
          exact hgo rfl
        · intro hgo
          exact ⟨h.treeIsUnion, sample', false, rfl, hunion, hcomplete ▸ hdone, fun _ ↦ hgo⟩
    · constructor
      · rintro ⟨-, s, done, hs, hunion, -⟩
        obtain ⟨rfl, rfl⟩ := Prod.mk.inj (Option.some.inj hs)
        exact absurd hunion hlost.not_treeIsUnion
      · rintro ⟨hone, -⟩
        omega

/-- A new record is that of its fragment, which does not cover the sample. -/
lemma recordInv_new (hlt : f.min < f.maxp1) (hB : f.maxp1 ≤ B) (hfrag : nnRdataIsFragment f info) :
    RecordInv B [f] (defragRsampleNew f info) where
  tree := defragRsampleNew_treeOk ⟨hB, .inl hlt⟩ info
  nonempty := by
    rw [defragRsampleNew_ivs]
    split_ifs <;> simp [NonemptyIvs, hlt]
  covers := fun x ↦ by
    rw [defragRsampleNew_ivs]
    split_ifs <;> simp [FragsCover, IvCovers]
  incomplete := by
    intro hwithin hall
    have hsize : f.maxp1 ≤ info.size := hwithin f (by simp)
    obtain ⟨g, hg, hmin, -⟩ := hall 0 (show 0 < info.size by omega)
    obtain ⟨g', hg', -, hmax⟩ := hall (info.size - 1) (show info.size - 1 < info.size by omega)
    rw [mem_singleton.mp hg] at hmin
    rw [mem_singleton.mp hg'] at hmax
    rw [nnRdataIsFragment_eq_true] at hfrag
    omega

/-- The fragment tree of a sample is the union of the fragments added, in every state of the run up
to the completion of the sample, and the sample is reported complete exactly when they cover it, if
and only if no fragment of the run has two intervals of the record end inside it. -/
theorem defragFaithful_new_iff (first : Rdata) (info : RsampleInfo)
    (rest : List (Rdata × RsampleInfo)) (hfirst : first.min < first.maxp1)
    (hfrag : nnRdataIsFragment first info = true)
    (hrest : ∀ f ∈ rest, f.1.min < f.1.maxp1) :
    DefragFaithful [first] (defragRsampleNew first info) rest ↔
      keepsRun (defragRsampleNew first info) rest = true := by
  obtain ⟨B, hB⟩ : ∃ B, ∀ x ∈ first.maxp1 :: rest.map (fun f ↦ f.1.maxp1), x ≤ B :=
    ⟨_, fun x hx ↦ List.le_max_of_mem hx⟩
  refine RecordInv.faithful_iff (B := B) (fun f hf ↦ ⟨hrest f hf, hB _ ?_⟩)
    (recordInv_new hfirst (hB _ List.mem_cons_self) hfrag)
  exact List.mem_cons_of_mem _ (List.mem_map_of_mem hf)

/-- Four fragments in any order that keeps them apart or joins two neighbours at a time. -/
theorem defragFaithful_new_four :
    DefragFaithful [⟨20, 30, []⟩] (defragRsampleNew ⟨20, 30, []⟩ ⟨1, 40, 10⟩)
      [(⟨0, 10, []⟩, ⟨1, 40, 10⟩), (⟨30, 40, []⟩, ⟨1, 40, 10⟩), (⟨5, 25, []⟩, ⟨1, 40, 10⟩)] :=
  (defragFaithful_new_iff ⟨20, 30, []⟩ ⟨1, 40, 10⟩ _ (by decide) (by decide) (by decide)).mpr
    (by decide)

/-- `[0, 30)` makes the sentinel absorb `[10, 20)` and end at 20. The bytes from 20 to 30 are
forgotten, and the sample is not reported when its last bytes arrive. -/
theorem defrag_forgets_bytes :
    ∃ sample' sample'',
      defragAddFragment (defragRsampleNew ⟨10, 20, []⟩ ⟨1, 40, 10⟩) ⟨0, 30, []⟩ ⟨1, 40, 10⟩ =
        some (sample', false) ∧
      defragAddFragment sample' ⟨30, 40, []⟩ ⟨1, 40, 10⟩ = some (sample'', false) ∧
      sample''.ivs.map (fun a ↦ (a.min, a.maxp1)) = [(0, 20), (30, 40)] ∧
      CoversSize [⟨10, 20, []⟩, ⟨0, 30, []⟩, ⟨30, 40, []⟩] 40 ∧
      ¬ DefragFaithful [⟨10, 20, []⟩] (defragRsampleNew ⟨10, 20, []⟩ ⟨1, 40, 10⟩)
        [(⟨0, 30, []⟩, ⟨1, 40, 10⟩)] := by
  refine ⟨_, _, rfl, rfl, by decide, fun x hx ↦ ?_, ?_⟩
  · simp only [FragsCover, List.mem_cons, List.not_mem_nil, or_false, exists_eq_or_imp,
      exists_eq_left]
    omega
  · rintro ⟨-, sample', done, hadd, hunion, -⟩
    obtain ⟨rfl, -⟩ := Prod.mk.inj (Option.some.inj hadd)
    obtain ⟨a, ha, hmin, hmax⟩ := (hunion.covers 25).mpr ⟨⟨0, 30, []⟩, by decide, by decide⟩
    revert hmin hmax
    revert a
    decide

end OpenSplice.Ddsi
