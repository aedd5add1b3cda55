import OpenSplice.Library.Neighbour
import OpenSplice.Ddsi.Whc.Model

/-!
# The samples of a cache in the order of their sequence numbers

The hash table, the linked list and the intervals of a writer history cache stand for the same set
of numbers, `Whc.seqs`. `SeqOk` says how: the links are the neighbours in the set, and the intervals
are its maximal runs, with an open interval at the end that alone may be empty. The parameter `last`
bounds what was ever inserted, and keeps an empty open interval from touching the interval before
it.

The cache makes two edits to the order. A sample is taken out (`whcDeleteOneIntv_eq`,
`cutInterval_ok`), or put in behind all others (`SeqOk.insertSeq`).
-/

set_option autoImplicit false

namespace OpenSplice.Ddsi

open Library Library.Neighbour KeyedList List IntervalList WhcIntvnode Whc

/-! ### Intervals -/

def WhcIntvnode.Filled (intv : WhcIntvnode) : Prop :=
  intv.min < intv.maxp1 ∧ intv.first = some intv.min ∧ intv.last = some (intv.maxp1 - 1)

/-- An interval without samples. Its `last` means nothing. -/
def WhcIntvnode.Vacant (intv : WhcIntvnode) : Prop :=
  intv.min = intv.maxp1 ∧ intv.first = none

/-- The intervals stand for the set `S`. -/
structure IntvOk (intvs : List WhcIntvnode) (openIntv : ℤ) (S : Set ℤ) : Prop where
  separated : IntervalList.Separated WhcIntvnode.min WhcIntvnode.maxp1 intvs
  covers : ∀ x, IntervalList.Covers WhcIntvnode.min WhcIntvnode.maxp1 intvs x ↔ x ∈ S
  openLast : KeyedList.lastKey WhcIntvnode.min intvs = some openIntv
  filled : ∀ iv ∈ intvs, iv.Filled ∨ (iv.min = openIntv ∧ iv.Vacant)

/-- `I` points to the interval that has the sample `next`, if there is one. -/
def IntvAt (intvs : List WhcIntvnode) (I next : Option ℤ) : Prop :=
  ∀ s, next = some s → ∃ iv ∈ intvs, I = some iv.min ∧ iv.min ≤ s ∧ s < iv.maxp1

namespace IntvOk

variable {intvs ipre ipost : List WhcIntvnode} {iv : WhcIntvnode} {openIntv : ℤ} {S : Set ℤ}

section

variable (h : IntvOk intvs openIntv S)
include h

lemma min_le_maxp1 (hiv : iv ∈ intvs) : iv.min ≤ iv.maxp1 := by
  rcases h.filled iv hiv with hfilled | ⟨-, hvacant⟩
  · exact hfilled.1.le
  · exact hvacant.1.le

lemma ordered : KeyedList.Ordered min intvs := h.separated.ordered fun _ hiv ↦ h.min_le_maxp1 hiv

lemma filled_of_lt (hiv : iv ∈ intvs) (hlt : iv.min < iv.maxp1) : iv.Filled := by
  rcases h.filled iv hiv with hfilled | ⟨-, hvacant⟩
  · exact hfilled
  · exact absurd hvacant.1 hlt.ne

lemma mem_of_bounds (hiv : iv ∈ intvs) {x : ℤ} (hmin : iv.min ≤ x) (hmax : x < iv.maxp1) : x ∈ S :=
  (h.covers x).mp ⟨iv, hiv, hmin, hmax⟩

end

section

variable (h : IntvOk (ipre ++ iv :: ipost) openIntv S)
include h

lemma isOpen_iff : iv.min = openIntv ↔ ipost = [] := by
  rw [← lastKey_eq_iff h.ordered, h.openLast, Option.some_inj, eq_comm]

lemma filled_of_before {iv' : WhcIntvnode} (hiv' : iv' ∈ ipre) : iv'.Filled := by
  rcases h.filled iv' (mem_append_left _ hiv') with hfilled | ⟨hopen, -⟩
  · exact hfilled
  · obtain ⟨a, b, rfl⟩ := append_of_mem hiv'
    rw [append_assoc, cons_append] at h
    exact absurd (h.isOpen_iff.mp hopen) (by simp)

/-- What follows the last sample of an interval is in the next interval. -/
lemma succ_bounds {a s : ℤ} (hmin : iv.min ≤ a)
    (hmax : iv.maxp1 = a + 1) (hs : Follows S a (some s)) :
    ∃ iv' rest, ipost = iv' :: rest ∧ iv'.min ≤ s ∧ s < iv'.maxp1 := by
  obtain ⟨hmem, has, hleast⟩ := hs
  obtain ⟨c, hc, hcs, hsc⟩ := (h.covers s).mpr hmem
  obtain ⟨-, hsep, hcross⟩ := separated_append.mp h.separated
  obtain ⟨hsep, hseppost⟩ := separated_cons.mp hsep
  have hcpost : c ∈ ipost := by
    rcases mem_middle.mp hc with hpre | rfl | hpost
    · have := hcross c hpre iv (mem_cons_self ..)
      omega
    · omega
    · exact hpost
  obtain ⟨iv', rest, rfl⟩ := exists_cons_of_ne_nil (ne_nil_of_mem hcpost)
  rcases mem_cons.mp hcpost with rfl | hrest
  · exact ⟨c, rest, rfl, hcs, hsc⟩
  · exfalso
    -- the interval in between has samples, all of them between `a` and `s`
    obtain ⟨hafter, -⟩ := separated_cons.mp hseppost
    obtain ⟨c1, c2, hsplit⟩ := append_of_mem hrest
    have hfill : iv'.Filled := by
      have h' : IntvOk ((ipre ++ iv :: iv' :: c1) ++ c :: c2) openIntv S := by
        simpa [hsplit] using h
      exact h'.filled_of_before (by simp)
    have hin : iv'.min ∈ S := h.mem_of_bounds (by simp) (le_refl _) hfill.1
    have hlt : iv.maxp1 < iv'.min := hsep iv' (mem_cons_self ..)
    have hle := hleast iv'.min hin (by omega)
    have hgt : iv'.maxp1 < c.min := hafter c hrest
    have := hfill.1
    omega

lemma intvAt_succ {a : ℤ} {next : Option ℤ}
    (hmin : iv.min ≤ a) (hmax : iv.maxp1 = a + 1) (hnext : Follows S a next)
    {intvs' : List WhcIntvnode} (hsub : ∀ iv' ∈ ipost, iv' ∈ intvs') :
    IntvAt intvs' ((findSucc min iv.min (ipre ++ iv :: ipost)).map min) next := by
  rintro s rfl
  obtain ⟨iv', rest, rfl, hlo, hhi⟩ := h.succ_bounds hmin hmax hnext
  refine ⟨iv', hsub iv' (mem_cons_self ..), ?_, hlo, hhi⟩
  rw [findSucc_split h.ordered, head?_cons, Option.map_some]

/-- A number is taken out of an interval, and the intervals `cs` are what is left of it. -/
lemma cut (cs : List WhcIntvnode) {o x : ℤ} (hx : iv.min ≤ x ∧ x < iv.maxp1)
    (hsep : IntervalList.Separated min maxp1 cs)
    (hin : ∀ c ∈ cs, iv.min ≤ c.min ∧ c.maxp1 ≤ iv.maxp1)
    (hcovers : ∀ y, IntervalList.Covers min maxp1 cs y ↔ (iv.min ≤ y ∧ y < iv.maxp1) ∧ y ≠ x)
    (hlast : lastKey min (ipre ++ (cs ++ ipost)) = some o)
    (hopen : ipost ≠ [] → o = openIntv)
    (hfill : ∀ c ∈ cs, c.Filled ∨ (c.min = o ∧ c.Vacant)) :
    IntvOk (ipre ++ (cs ++ ipost)) o (S \ {x}) := by
  obtain ⟨hsepPre, hsepRest, hcross⟩ := separated_append.mp h.separated
  obtain ⟨hafter, hsepPost⟩ := separated_cons.mp hsepRest
  have hbefore : ∀ a ∈ ipre, a.maxp1 < iv.min := fun a ha ↦ hcross a ha iv (mem_cons_self ..)
  refine ⟨?_, fun y ↦ ?_, hlast, fun c hc ↦ ?_⟩
  · refine separated_append.mpr ⟨hsepPre, separated_append.mpr
      ⟨hsep, hsepPost, fun c hc b hb ↦ ?_⟩, fun a ha b hb ↦ ?_⟩
    · exact lt_of_le_of_lt (hin c hc).2 (hafter b hb)
    · rcases mem_append.mp hb with hcs | hpost
      · exact lt_of_lt_of_le (hbefore a ha) (hin b hcs).1
      · exact hcross a ha b (mem_cons_of_mem iv hpost)
  · rw [Set.mem_sdiff, Set.mem_singleton_iff, ← h.covers y]
    simp only [covers_append, covers_cons, hcovers]
    have hpre : IntervalList.Covers min maxp1 ipre y → y ≠ x := by
      rintro ⟨a, ha, -, hya⟩ rfl
      have := hbefore a ha
      omega
    have hpost : IntervalList.Covers min maxp1 ipost y → y ≠ x := by
      rintro ⟨b, hb, hby, -⟩ rfl
      have := hafter b hb
      omega
    tauto
  · rcases mem_append.mp hc with hpre | hrest
    · exact .inl (h.filled_of_before hpre)
    · rcases mem_append.mp hrest with hcs | hpost
      · exact hfill c hcs
      · rw [hopen (ne_nil_of_mem hpost)]
        exact h.filled c (mem_append_right _ (mem_cons_of_mem _ hpost))

end

end IntvOk

section CutInterval

variable {ipre ipost : List WhcIntvnode} {openIntv : ℤ} {S : Set ℤ} {iv : WhcIntvnode}
  {whcn : WhcNode}

/-- What `cutInterval` has to return. -/
def CutOk (intvs : List WhcIntvnode) (S : Set ℤ) (whcn : WhcNode)
    (out : List WhcIntvnode × ℤ × Option ℤ) : Prop :=
  IntvOk out.1 out.2.1 (S \ {whcn.seq}) ∧ IntvAt out.1 out.2.2 whcn.nextSeq ∧
    ∀ c ∈ out.1, ∃ iv ∈ intvs, c.maxp1 ≤ iv.maxp1

lemma IntvOk.bound_of_mem (cs : List WhcIntvnode) (hcs : ∀ c ∈ cs, c.maxp1 ≤ iv.maxp1) :
    ∀ c ∈ ipre ++ (cs ++ ipost), ∃ iv' ∈ ipre ++ iv :: ipost, c.maxp1 ≤ iv'.maxp1 := by
  simp only [forall_mem_append]
  refine ⟨fun c hc ↦ ?_, fun c hc ↦ ⟨iv, by simp, hcs c hc⟩, fun c hc ↦ ?_⟩ <;>
    exact ⟨c, by simp [hc], le_rfl⟩

section

variable (h : IntvOk (ipre ++ iv :: ipost) openIntv S)
include h

variable {x : ℤ}

lemma IntvOk.nextSeq_eq {next : Option ℤ}
    (hlo : iv.min ≤ x) (hhi : x + 1 < iv.maxp1) (hnext : Follows S x next) :
    next = some (x + 1) := by
  refine hnext.unique (q := some (x + 1)) ⟨?_, by omega, fun y _ hy ↦ by omega⟩
  exact h.mem_of_bounds (by simp) (by omega) hhi

lemma IntvOk.prevSeq_eq {prev : Option ℤ}
    (hlo : iv.min < x) (hhi : x < iv.maxp1) (hprev : Precedes S x prev) :
    prev = some (x - 1) := by
  refine hprev.unique (q := some (x - 1)) ⟨?_, by omega, fun y _ hy ↦ by omega⟩
  exact h.mem_of_bounds (mem_append_right _ mem_cons_self) (by omega) (by omega)

lemma IntvOk.openIntv_replace (k : ℤ) :
    (lastKey min ipost).or (some k) = some (if iv.min = openIntv then k else openIntv) := by
  rw [← lastKey_rekey h.ordered k, h.openLast]
  by_cases hopen : iv.min = openIntv
  · rw [if_pos hopen, if_pos (congrArg some hopen.symm)]
  · rw [if_neg hopen, if_neg fun heq ↦ hopen (Option.some_inj.mp heq).symm]

open IntvOk

lemma cutInterval_single
    (hmin : iv.min = whcn.seq) (hmax : iv.maxp1 = whcn.seq + 1) (hopen : iv.min ≠ openIntv)
    (hnext : Follows S whcn.seq whcn.nextSeq) :
    CutOk (ipre ++ iv :: ipost) S whcn (delete min iv.min (ipre ++ iv :: ipost), openIntv,
        (findSucc min iv.min (ipre ++ iv :: ipost)).map min) := by
  have hlast : lastKey min (ipre ++ ([] ++ ipost)) = some openIntv := by
    have hlast := h.openIntv_replace 0
    rw [if_neg hopen] at hlast
    obtain ⟨o, rest, rfl⟩ := exists_cons_of_ne_nil (mt h.isOpen_iff.mpr hopen)
    rw [nil_append, lastKey_split]
    rw [show o :: rest = [] ++ o :: rest from rfl, lastKey_split] at hlast
    simpa using hlast
  rw [delete_split h.ordered]
  refine ⟨h.cut [] ⟨hmin.le, by omega⟩ (by simp [IntervalList.Separated]) (by simp)
    (fun y ↦ ?_) hlast (fun _ ↦ rfl) (by simp), ?_, ?_⟩
  · simp
    omega
  · exact h.intvAt_succ hmin.le hmax hnext fun iv' hiv' ↦ mem_append_right _ hiv'
  · exact bound_of_mem [] (by simp)

/-- An interval gives way to a part of itself without the number `x`, at one of its ends. -/
lemma IntvOk.shrink {c : WhcIntvnode}
    (hx : iv.min ≤ x ∧ x < iv.maxp1) (hin : iv.min ≤ c.min ∧ c.maxp1 ≤ iv.maxp1)
    (hcovers : ∀ y, c.min ≤ y ∧ y < c.maxp1 ↔ (iv.min ≤ y ∧ y < iv.maxp1) ∧ y ≠ x)
    (hfill : c.Filled ∨ (iv.min = openIntv ∧ c.Vacant)) :
    IntvOk (ipre ++ c :: ipost) (if iv.min = openIntv then c.min else openIntv) (S \ {x}) := by
  refine h.cut [c] hx (by simp [IntervalList.Separated]) (by simpa using hin)
    (fun y ↦ by simpa using hcovers y) ?_ (fun hpost ↦ ?_) ?_
  · rw [singleton_append, lastKey_split, h.openIntv_replace]
  · exact if_neg (mt h.isOpen_iff.mp hpost)
  · simp only [mem_singleton, forall_eq]
    rcases hfill with hfill | ⟨hopen, hvacant⟩
    · exact .inl hfill
    · exact .inr ⟨(if_pos hopen).symm, hvacant⟩

/-- The first sample of an interval that has others, or is the open one. -/
lemma cutInterval_first
    (hmin : iv.min = whcn.seq) (hlt : iv.min < iv.maxp1) (hl : iv.last = some (iv.maxp1 - 1))
    (hopen : iv.maxp1 = iv.min + 1 → iv.min = openIntv)
    (hnext : Follows S whcn.seq whcn.nextSeq) :
    CutOk (ipre ++ iv :: ipost) S whcn (update min iv.min
          { iv with first := whcn.nextSeq, min := iv.min + 1 } (ipre ++ iv :: ipost),
        if iv.min = openIntv then iv.min + 1 else openIntv, some (iv.min + 1)) := by
  rw [update_split h.ordered]
  set c : WhcIntvnode := { iv with first := whcn.nextSeq, min := iv.min + 1 } with hc
  have hcmin : c.min = iv.min + 1 := rfl
  have hcmax : c.maxp1 = iv.maxp1 := rfl
  have hcases : (c.Filled ∧ whcn.nextSeq = some c.min) ∨
      ((iv.min = openIntv ∧ c.Vacant) ∧ whcn.nextSeq = none) := by
    by_cases hone : iv.maxp1 = iv.min + 1
    · right
      have hnone : whcn.nextSeq = none := by
        refine Option.eq_none_iff_forall_ne_some.mpr fun s hs ↦ ?_
        rw [hs] at hnext
        obtain ⟨iv', rest, hpost, -⟩ := h.succ_bounds hmin.le (by omega) hnext
        rw [h.isOpen_iff.mp (hopen hone)] at hpost
        exact cons_ne_nil _ _ hpost.symm
      exact ⟨⟨hopen hone, hone.symm, hnone⟩, hnone⟩
    · left
      have hsome := h.nextSeq_eq hmin.le (by omega) hnext
      rw [← hmin] at hsome
      exact ⟨⟨by omega, hsome, hl⟩, hsome⟩
  refine ⟨h.shrink ⟨hmin.le, by omega⟩ ⟨by omega, hcmax.le⟩ (fun y ↦ by omega)
    (hcases.imp And.left And.left), fun s hs ↦ ?_, bound_of_mem [c] (by simp [hc])⟩
  rcases hcases with ⟨hfill, hsome⟩ | ⟨-, hnone⟩
  · obtain rfl := Option.mem_unique hs hsome
    exact ⟨c, by simp, rfl, le_refl _, hfill.1⟩
  · rw [hnone] at hs
    simp at hs

lemma cutInterval_last
    (hmin : iv.min < whcn.seq) (hmax : iv.maxp1 = whcn.seq + 1) (hf : iv.first = some iv.min)
    (hnext : Follows S whcn.seq whcn.nextSeq) (hprev : Precedes S whcn.seq whcn.prevSeq) :
    CutOk (ipre ++ iv :: ipost) S whcn (update min iv.min
          { iv with last := whcn.prevSeq, maxp1 := iv.maxp1 - 1 } (ipre ++ iv :: ipost), openIntv,
        (findSucc min iv.min (ipre ++ iv :: ipost)).map min) := by
  rw [update_split h.ordered]
  set c : WhcIntvnode := { iv with last := whcn.prevSeq, maxp1 := iv.maxp1 - 1 } with hc
  have hcmin : c.min = iv.min := rfl
  have hcmax : c.maxp1 = iv.maxp1 - 1 := rfl
  have hsome := h.prevSeq_eq hmin (by omega) hprev
  have hfill : c.Filled := ⟨by omega, hf, by rw [hcmax, hmax, add_sub_cancel_right]; exact hsome⟩
  have hok := h.shrink (c := c) (x := whcn.seq) ⟨hmin.le, by omega⟩ ⟨hcmin.ge, by omega⟩
    (fun y ↦ by omega) (.inl hfill)
  have hopen : (if iv.min = openIntv then c.min else openIntv) = openIntv := by
    split_ifs with hopen
    · exact hopen
    · rfl
  rw [hopen] at hok
  refine ⟨hok, ?_, bound_of_mem [c] (by simp [hc])⟩
  exact h.intvAt_succ hmin.le hmax hnext fun iv' hiv' ↦ by simp [hiv']

lemma cutInterval_middle
    (hmin : iv.min < whcn.seq) (hmax : whcn.seq + 1 < iv.maxp1) (hf : iv.first = some iv.min)
    (hl : iv.last = some (iv.maxp1 - 1)) (hnext : Follows S whcn.seq whcn.nextSeq)
    (hprev : Precedes S whcn.seq whcn.prevSeq) :
    CutOk (ipre ++ iv :: ipost) S whcn (insert min ⟨whcn.seq + 1, iv.maxp1, whcn.nextSeq, iv.last⟩
          (update min iv.min
            { iv with last := whcn.prevSeq, maxp1 := whcn.seq } (ipre ++ iv :: ipost)),
        if iv.min = openIntv then whcn.seq + 1 else openIntv, some (whcn.seq + 1)) := by
  have hnextEq := h.nextSeq_eq hmin.le hmax hnext
  have hprevEq := h.prevSeq_eq hmin (by omega) hprev
  unfold CutOk
  rw [update_split h.ordered, hnextEq, hprevEq, hl]
  set c : WhcIntvnode := { iv with last := some (whcn.seq - 1), maxp1 := whcn.seq } with hc
  set d : WhcIntvnode := ⟨whcn.seq + 1, iv.maxp1, some (whcn.seq + 1), some (iv.maxp1 - 1)⟩ with hd
  have hsplit : insert min d (ipre ++ c :: ipost) = ipre ++ ([c, d] ++ ipost) := by
    obtain ⟨-, -, hbefore, -, -⟩ := ordered_append_cons.mp h.ordered
    obtain ⟨hafter, -⟩ := separated_cons.mp (separated_append.mp h.separated).2.1
    rw [append_cons ipre c ipost, insert_split]
    · simp
    · intro a ha
      rcases mem_append.mp ha with ha | ha
      · have := hbefore a ha
        exact show a.min < whcn.seq + 1 by omega
      · rw [mem_singleton.mp ha]
        exact show iv.min < whcn.seq + 1 by omega
    · intro b hb
      have := hafter b hb
      exact show whcn.seq + 1 < b.min by omega
  rw [hsplit]
  have hcFill : c.Filled := ⟨hmin, hf, rfl⟩
  have hdFill : d.Filled := ⟨hmax, rfl, rfl⟩
  refine ⟨h.cut _ ⟨hmin.le, by omega⟩ ?_ ?_ (fun y ↦ ?_) ?_ (fun hpost ↦ ?_) ?_, ?_, ?_⟩
  · exact pairwise_pair.mpr (show whcn.seq < whcn.seq + 1 by omega)
  · simp only [mem_cons, not_mem_nil, or_false, forall_eq_or_imp, forall_eq]
    exact ⟨⟨le_refl _, show whcn.seq ≤ iv.maxp1 by omega⟩,
      show iv.min ≤ whcn.seq + 1 by omega, le_refl _⟩
  · simp [covers_cons, covers_nil, hc, hd]
    omega
  · rw [show ipre ++ ([c, d] ++ ipost) = (ipre ++ [c]) ++ d :: ipost by simp,
      lastKey_split, h.openIntv_replace]
  · exact if_neg (mt h.isOpen_iff.mp hpost)
  · simp only [mem_cons, not_mem_nil, or_false, forall_eq_or_imp, forall_eq]
    exact ⟨.inl hcFill, .inl hdFill⟩
  · rintro s hs
    obtain rfl := Option.some_inj.mp hs
    exact ⟨d, by simp, rfl, le_refl _, hmax⟩
  · refine bound_of_mem _ ?_
    simp only [mem_cons, not_mem_nil, or_false, forall_eq_or_imp, forall_eq]
    exact ⟨show whcn.seq ≤ iv.maxp1 by omega, le_refl _⟩

end

lemma cutInterval_ok {intvs : List WhcIntvnode} (h : IntvOk intvs openIntv S) (hiv : iv ∈ intvs)
    (hlo : iv.min ≤ whcn.seq) (hhi : whcn.seq < iv.maxp1)
    (hnext : Follows S whcn.seq whcn.nextSeq) (hprev : Precedes S whcn.seq whcn.prevSeq) :
    CutOk intvs S whcn (cutInterval intvs openIntv iv whcn) := by
  obtain ⟨hlt, hfirst, hlast⟩ := h.filled_of_lt hiv (by omega)
  obtain ⟨ipre, ipost, rfl⟩ := append_of_mem hiv
  have hfirstIff : iv.first = some whcn.seq ↔ iv.min = whcn.seq := by rw [hfirst, Option.some_inj]
  have hlastIff : iv.last = some whcn.seq ↔ iv.maxp1 - 1 = whcn.seq := by
    rw [hlast, Option.some_inj]
  unfold cutInterval
  by_cases hf : iv.min = whcn.seq
  · rw [if_pos (hfirstIff.mpr hf)]
    by_cases hsingle : iv.maxp1 - 1 = whcn.seq ∧ iv.min ≠ openIntv
    · rw [if_pos ⟨hlastIff.mpr hsingle.1, hsingle.2⟩]
      exact cutInterval_single h hf (by omega) hsingle.2 hnext
    · rw [if_neg fun hc ↦ hsingle ⟨hlastIff.mp hc.1, hc.2⟩]
      exact cutInterval_first h hf hlt hlast (fun hone ↦ by omega) hnext
  · rw [if_neg fun hc ↦ hf (hfirstIff.mp hc)]
    by_cases hl : iv.maxp1 - 1 = whcn.seq
    · rw [if_pos (hlastIff.mpr hl)]
      exact cutInterval_last h (by omega) (by omega) hfirst hnext hprev
    · rw [if_neg fun hc ↦ hl (hlastIff.mp hc)]
      exact cutInterval_middle h (by omega) (by omega) hfirst hlast hnext hprev

end CutInterval

/-! ### The cache in order -/

def Whc.seqs (whc : Whc) : Set ℤ := {x | ∃ w ∈ whc.seqHash, w.seq = x}

def Whc.samples (whc : Whc) : List WhcSample := whc.seqHash.map WhcNode.toWhcSample

/-- The hash table, the linked list and the intervals stand for one set of numbers, none of them
above `last`. -/
structure SeqOk (last : ℤ) (whc : Whc) : Prop where
  ordered : KeyedList.Ordered (fun w : WhcNode ↦ w.seq) whc.seqHash
  next : ∀ w ∈ whc.seqHash, Follows whc.seqs w.seq w.nextSeq
  prev : ∀ w ∈ whc.seqHash, Precedes whc.seqs w.seq w.prevSeq
  intv : IntvOk whc.seq whc.openIntv whc.seqs
  bound : ∀ iv ∈ whc.seq, iv.maxp1 ≤ last + 1
  pos : ∀ x ∈ whc.seqs, 0 < x

section SeqOk

variable {last : ℤ} {whc : Whc} {w : WhcNode} {s : ℤ} {whcn : WhcNode} {nodes : List WhcNode}
  (intv : WhcIntvnode) {S : Set ℤ}

lemma Whc.mem_seqs (hw : w ∈ whc.seqHash) : w.seq ∈ whc.seqs := ⟨w, hw, rfl⟩

section

variable (h : SeqOk last whc)
include h

namespace SeqOk

lemma le_last {x : ℤ} (hx : x ∈ whc.seqs) : x ≤ last := by
  obtain ⟨iv, hiv, -, hlt⟩ := (h.intv.covers x).mpr hx
  have := h.bound iv hiv
  omega

lemma mono {last' : ℤ} (hle : last ≤ last') : SeqOk last' whc :=
  { h with bound := fun iv hiv ↦ (h.bound iv hiv).trans (by omega) }

/-- The order does not depend on the settings, the counters and the index. -/
lemma of_eq {whc' : Whc} (hhash : whc'.seqHash = whc.seqHash)
    (hseq : whc'.seq = whc.seq) (hopen : whc'.openIntv = whc.openIntv) : SeqOk last whc' := by
  have hseqs : whc'.seqs = whc.seqs := by unfold seqs; rw [hhash]
  exact ⟨hhash ▸ h.ordered, by rw [hhash, hseqs]; exact h.next, by rw [hhash, hseqs]; exact h.prev,
    by rw [hseq, hopen, hseqs]; exact h.intv, by rw [hseq]; exact h.bound,
    by rw [hseqs]; exact h.pos⟩

lemma samplesOrdered : KeyedList.Ordered WhcSample.seq whc.samples := pairwise_map.mpr h.ordered

lemma findseq_of_mem (hw : w ∈ whc.seqHash) : whcFindseq whc w.seq = some w :=
  lookup_of_mem h.ordered hw

lemma exists_findseq (hs : s ∈ whc.seqs) :
    ∃ w ∈ whc.seqHash, w.seq = s ∧ whcFindseq whc s = some w := by
  obtain ⟨w, hw, rfl⟩ := hs
  exact ⟨w, hw, rfl, h.findseq_of_mem hw⟩

lemma intvAt_lookupPredEq (hs : s ∈ whc.seqs) :
    IntvAt whc.seq ((lookupPredEq min s whc.seq).map min) (some s) := by
  rintro s' hs'
  obtain rfl := Option.some_inj.mp hs'
  obtain ⟨iv, hiv, hlo, hhi⟩ := (h.intv.covers s).mpr hs
  obtain ⟨ipre, ipost, hsplit⟩ := append_of_mem hiv
  have hsep := h.intv.separated
  rw [hsplit] at hsep
  obtain ⟨hafter, -⟩ := separated_cons.mp (separated_append.mp hsep).2.1
  refine ⟨iv, hiv, ?_, hlo, hhi⟩
  rw [hsplit, lookupPredEq_split hlo fun b hb ↦ hhi.trans (hafter b hb), Option.map_some]

end SeqOk

end

lemma findseq_eq_some (hw : whcFindseq whc s = some w) : w ∈ whc.seqHash ∧ w.seq = s :=
  lookup_eq_some hw

lemma findseq_eq_none : whcFindseq whc s = none ↔ s ∉ whc.seqs := by
  unfold whcFindseq
  rw [lookup_eq_none]
  exact ⟨fun h ⟨w, hw, hs⟩ ↦ h w hw hs, fun h w hw hs ↦ h ⟨w, hw, hs⟩⟩

/-- `find_nextseq_intv` finds the sample that follows a number, and its interval. -/
lemma SeqOk.findNextseqIntv_spec (h : SeqOk last whc) (s : ℤ) :
    Follows whc.seqs s ((findNextseqIntv whc s).map Prod.fst) ∧
      IntvAt whc.seq ((findNextseqIntv whc s).bind Prod.snd)
        ((findNextseqIntv whc s).map Prod.fst) := by
  unfold findNextseqIntv
  cases hfind : whcFindseq whc s with
  | some n =>
    obtain ⟨hn, rfl⟩ := findseq_eq_some hfind
    have hnext := h.next n hn
    revert hnext
    dsimp only
    cases n.nextSeq with
    | none => exact fun hnext ↦ ⟨hnext, by simp [IntvAt]⟩
    | some => exact fun hnext ↦ ⟨hnext, h.intvAt_lookupPredEq hnext.1⟩
  | none =>
    have hmem := findseq_eq_none.mp hfind
    -- no interval has `s` in it, so the samples above are those of the intervals above
    have habove : ∀ x ∈ whc.seqs, s < x →
        ∃ iv ∈ whc.seq, s < iv.min ∧ iv.min ≤ x ∧ x < iv.maxp1 := by
      intro x hx _
      obtain ⟨iv, hiv, hlo, hhi⟩ := (h.intv.covers x).mpr hx
      refine ⟨iv, hiv, not_le.mp fun hle ↦ hmem ?_, hlo, hhi⟩
      exact h.intv.mem_of_bounds hiv hle (by omega)
    cases hsucc : lookupSuccEq min s whc.seq with
    | none =>
      have hall := lookupSuccEq_eq_none.mp hsucc
      refine ⟨fun x hx ↦ not_lt.mp fun hsx ↦ ?_, by simp [IntvAt]⟩
      obtain ⟨iv, hiv, hlt, -⟩ := habove x hx hsx
      exact absurd (hall iv hiv) (not_lt.mpr hlt.le)
    | some iv =>
      obtain ⟨ipre, ipost, hsplit, hle, hbefore⟩ := lookupSuccEq_eq_some hsucc
      have hiv : iv ∈ whc.seq := by simp [hsplit]
      have hok := h.intv
      rw [hsplit] at hok
      obtain ⟨-, -, -, hafter, -⟩ := ordered_append_cons.mp hok.ordered
      have hrest : ∀ iv' ∈ whc.seq, s < iv'.min → iv' = iv ∨ iv' ∈ ipost := by
        intro iv' hiv' hlt
        rw [hsplit] at hiv'
        rcases mem_append.mp hiv' with hpre | hpost
        · exact absurd (hbefore iv' hpre) (not_lt.mpr hlt.le)
        · exact mem_cons.mp hpost
      by_cases hlt : iv.min < iv.maxp1
      · obtain ⟨-, hfirst, -⟩ := h.intv.filled_of_lt hiv hlt
        have hin := h.intv.mem_of_bounds hiv (le_refl _) hlt
        simp only [if_pos hlt, hfirst, Option.map_some, Option.bind_some]
        refine ⟨⟨hin, lt_of_le_of_ne hle fun heq ↦ hmem (heq ▸ hin), fun x hx hsx ↦ ?_⟩, ?_⟩
        · obtain ⟨iv', hiv', hlt', hlo, -⟩ := habove x hx hsx
          rcases hrest iv' hiv' hlt' with rfl | hpost
          · exact hlo
          · exact (hafter iv' hpost).le.trans hlo
        · rintro s' hs'
          obtain rfl := Option.some_inj.mp hs'
          exact ⟨iv, hiv, rfl, le_refl _, hlt⟩
      · simp only [if_neg hlt, Option.map_none, Option.bind_none]
        refine ⟨fun x hx ↦ not_lt.mp fun hsx ↦ ?_, by simp [IntvAt]⟩
        obtain ⟨iv', hiv', hlt', hlo, hhi⟩ := habove x hx hsx
        have hvacant := (h.intv.filled iv hiv).resolve_left fun hfill ↦ hlt hfill.1
        have hpost := hok.isOpen_iff.mp hvacant.1
        rcases hrest iv' hiv' hlt' with rfl | hmem'
        · omega
        · rw [hpost] at hmem'
          simp at hmem'

/-! ### Taking a sample out -/

/-- The cache after `whc_delete_one_intv`, when the index has become that of `admin`. -/
def Whc.drop (whc : Whc) (intv : WhcIntvnode) (whcn : WhcNode) (admin : WhcAdmin) : Whc :=
  { whc with
    toWhcAdmin := admin.uncount whcn.toWhcSample
    seqHash := unlinkNode whcn whc.seqHash
    seq := (cutInterval whc.seq whc.openIntv intv whcn).1
    openIntv := (cutInterval whc.seq whc.openIntv intv whcn).2.1 }

lemma mem_unlinkNode :
    w ∈ unlinkNode whcn nodes ↔ ∃ v ∈ nodes, v.seq ≠ whcn.seq ∧ { v with
      nextSeq := if whcn.prevSeq = some v.seq then whcn.nextSeq else v.nextSeq
      prevSeq := if whcn.nextSeq = some v.seq then whcn.prevSeq else v.prevSeq } = w := by
  simp only [unlinkNode, delete, List.mem_map, mem_filter, ne_eq,
    decide_not, Bool.not_eq_true', decide_eq_false_iff_not, and_assoc]

lemma Whc.seqs_drop (whcn : WhcNode) (admin : WhcAdmin) :
    (whc.drop intv whcn admin).seqs = whc.seqs \ {whcn.seq} := by
  ext x
  simp only [seqs, drop, Set.mem_ofPred_eq, Set.mem_sdiff, Set.mem_singleton_iff, mem_unlinkNode]
  constructor
  · rintro ⟨w, ⟨v, hv, hne, rfl⟩, rfl⟩
    exact ⟨⟨v, hv, rfl⟩, hne⟩
  · rintro ⟨⟨v, hv, rfl⟩, hne⟩
    exact ⟨_, ⟨v, hv, hne, rfl⟩, rfl⟩

lemma Whc.samples_drop (whcn : WhcNode) (admin : WhcAdmin) :
    (whc.drop intv whcn admin).samples = delete WhcSample.seq whcn.seq whc.samples := by
  simp only [Whc.samples, Whc.drop, unlinkNode, delete, List.map_map, filter_map]
  rfl

lemma SeqOk.drop (h : SeqOk last whc) {whcn : WhcNode} (hw : whcn ∈ whc.seqHash)
    {intv : WhcIntvnode} (hintv : intv ∈ whc.seq) (hlo : intv.min ≤ whcn.seq)
    (hhi : whcn.seq < intv.maxp1) (admin : WhcAdmin) :
    SeqOk last (whc.drop intv whcn admin) ∧ IntvAt (whc.drop intv whcn admin).seq
        (cutInterval whc.seq whc.openIntv intv whcn).2.2 whcn.nextSeq := by
  obtain ⟨hok, hat, hbound⟩ := cutInterval_ok h.intv hintv hlo hhi (h.next whcn hw) (h.prev whcn hw)
  have hseqs := @Whc.seqs_drop whc intv whcn admin
  refine ⟨⟨?_, ?_, ?_, ?_, ?_, ?_⟩, hat⟩
  · refine pairwise_map.mpr (List.Pairwise.imp ?_ (h.ordered.filter _))
    exact fun hlt ↦ hlt
  · rw [hseqs]
    intro w hw'
    obtain ⟨v, hv, -, rfl⟩ := mem_unlinkNode.mp hw'
    have hfollows := (h.next v hv).remove (h.next whcn hw)
    rwa [if_congr ((h.next v hv).eq_some_iff (h.prev whcn hw) ⟨v, hv, rfl⟩ ⟨whcn, hw, rfl⟩) rfl
      rfl] at hfollows
  · rw [hseqs]
    intro w hw'
    obtain ⟨v, hv, -, rfl⟩ := mem_unlinkNode.mp hw'
    have hprecedes := (h.prev v hv).remove (h.prev whcn hw)
    rwa [if_congr ((h.next whcn hw).eq_some_iff (h.prev v hv) ⟨whcn, hw, rfl⟩ ⟨v, hv, rfl⟩).symm
      rfl rfl] at hprecedes
  · rw [hseqs]
    exact hok
  · intro c hc
    obtain ⟨iv, hiv, hle⟩ := hbound c hc
    exact hle.trans (h.bound iv hiv)
  · rw [hseqs]
    exact fun x hx ↦ h.pos x hx.1

/-- `whc_delete_one_intv` fails only where the index does. -/
lemma SeqOk.whcDeleteOneIntv_eq (h : SeqOk last whc) (hw : whcn ∈ whc.seqHash)
    {intv : WhcIntvnode} (hintv : intv ∈ whc.seq) :
    whcDeleteOneIntv whc (some intv.min) whcn.seq =
      (deleteOneSampleFromIdx whc.toWhcAdmin whcn.toWhcSample).map fun admin ↦
        (whc.drop intv whcn admin, (cutInterval whc.seq whc.openIntv intv whcn).2.2,
          whcn.nextSeq) := by
  unfold whcDeleteOneIntv
  rw [Option.bind_some, lookup_of_mem h.intv.ordered hintv, h.findseq_of_mem hw]
  simp only [Option.bind_eq_bind, Option.bind_some]
  cases deleteOneSampleFromIdx whc.toWhcAdmin whcn.toWhcSample <;> rfl

lemma SeqOk.whcDeleteOne_eq (h : SeqOk last whc) (hw : whcn ∈ whc.seqHash) :
    ∃ intv ∈ whc.seq, intv.min ≤ whcn.seq ∧ whcn.seq < intv.maxp1 ∧ whcDeleteOne whc whcn.seq =
        (deleteOneSampleFromIdx whc.toWhcAdmin whcn.toWhcSample).map fun admin ↦
          { whc.drop intv whcn admin with seqSize := whc.seqSize - 1 } := by
  obtain ⟨intv, hintv, hI, hlo, hhi⟩ := h.intvAt_lookupPredEq (Whc.mem_seqs hw) whcn.seq rfl
  refine ⟨intv, hintv, hlo, hhi, ?_⟩
  unfold whcDeleteOne
  rw [hI, h.whcDeleteOneIntv_eq hw hintv, Option.map_map]
  rfl

lemma Whc.samples_modify (s : ℤ) (f : WhcSample → WhcSample) :
    (whc.modify s f).samples = KeyedList.modify WhcSample.seq s f whc.samples := by
  simp only [Whc.samples, Whc.modify, KeyedList.modify, map_map]
  refine map_congr_left fun w _ ↦ ?_
  by_cases hw : w.seq = s <;> simp [hw, WhcNode.modify]

section Modify

variable {s : ℤ} {f : WhcSample → WhcSample} (hf : ∀ w, (f w).seq = w.seq)
include hf

lemma Whc.mem_modify {w : WhcNode} (hw : w ∈ (whc.modify s f).seqHash) :
    ∃ v ∈ whc.seqHash, w.seq = v.seq ∧ w.nextSeq = v.nextSeq ∧ w.prevSeq = v.prevSeq := by
  rcases KeyedList.mem_modify.mp hw with ⟨v, hv, -, rfl⟩ | ⟨hw, -⟩
  · exact ⟨v, hv, hf v.toWhcSample, rfl, rfl⟩
  · exact ⟨w, hw, rfl, rfl, rfl⟩

lemma Whc.seqs_modify : (whc.modify s f).seqs = whc.seqs := by
  have hmap : (whc.modify s f).seqHash.map (fun w ↦ w.seq) = whc.seqHash.map fun w ↦ w.seq :=
    map_modify (fun w ↦ hf w.toWhcSample) s whc.seqHash
  ext x
  have hmem := congrArg (x ∈ ·) hmap
  simp only [mem_map] at hmem
  exact iff_of_eq hmem

lemma SeqOk.modify (h : SeqOk last whc) : SeqOk last (whc.modify s f) := by
  have hseqs := @Whc.seqs_modify whc s f hf
  refine ⟨h.ordered.modify s fun w ↦ hf w.toWhcSample, ?_, ?_, ?_, h.bound, ?_⟩
  · rw [hseqs]
    intro w hw
    obtain ⟨v, hv, hseq, hnext, -⟩ := mem_modify hf hw
    rw [hseq, hnext]
    exact h.next v hv
  · rw [hseqs]
    intro w hw
    obtain ⟨v, hv, hseq, -, hprev⟩ := mem_modify hf hw
    rw [hseq, hprev]
    exact h.prev v hv
  · rw [hseqs]
    exact h.intv
  · rw [hseqs]
    exact h.pos

end Modify

/-! ### Putting a sample in -/

lemma mem_linkNode {maxseqNode : Option ℤ} {newn : WhcSample} :
    w ∈ linkNode maxseqNode newn nodes ↔ (∃ v ∈ nodes, { v with
        nextSeq := if maxseqNode = some v.seq then some newn.seq else v.nextSeq } = w) ∨
      w = { newn with nextSeq := none, prevSeq := maxseqNode } := by
  simp [linkNode]

lemma IntvOk.concat {ipre : List WhcIntvnode} {lo hi : ℤ}
    (hsep : IntervalList.Separated min maxp1 ipre)
    (hfill : ∀ iv ∈ ipre, iv.Filled) (hbefore : ∀ iv ∈ ipre, iv.maxp1 < lo) (hlt : lo < hi)
    (hcovers : ∀ x, x ∈ S ↔ IntervalList.Covers min maxp1 ipre x ∨ (lo ≤ x ∧ x < hi)) :
    IntvOk (ipre ++ [⟨lo, hi, some lo, some (hi - 1)⟩]) lo S := by
  refine ⟨?_, fun x ↦ ?_, lastKey_concat ipre _, fun iv hiv ↦ .inl ?_⟩
  · exact separated_append.mpr
      ⟨hsep, pairwise_singleton _ _, fun a ha b hb ↦ mem_singleton.mp hb ▸ hbefore a ha⟩
  · rw [hcovers, covers_append, covers_cons]
    simp
  · rcases mem_append.mp hiv with hpre | hlast
    · exact hfill iv hpre
    · exact mem_singleton.mp hlast ▸ ⟨hlt, rfl, rfl⟩

lemma growInterval_ok {intvs : List WhcIntvnode} {iv : WhcIntvnode}
    (h : IntvOk intvs iv.min S) (hiv : iv ∈ intvs) (hs : ∀ c ∈ intvs, c.maxp1 ≤ s) :
    IntvOk (growInterval intvs iv s).1 (growInterval intvs iv s).2 (insert s S) ∧
      ∀ c ∈ (growInterval intvs iv s).1, c.maxp1 ≤ s + 1 := by
  obtain ⟨ipre, ipost, rfl⟩ := append_of_mem hiv
  obtain rfl : ipost = [] := h.isOpen_iff.mp rfl
  obtain ⟨hsepPre, -, hcross⟩ := separated_append.mp h.separated
  have hbefore : ∀ a ∈ ipre, a.maxp1 < iv.min := fun a ha ↦ hcross a ha iv (by simp)
  have hfillPre : ∀ a ∈ ipre, a.Filled := fun a ha ↦ h.filled_of_before ha
  have hle := h.min_le_maxp1 hiv
  have hmax := hs iv hiv
  have hbound : ∀ (l : List WhcIntvnode) (c : WhcIntvnode), (∀ a ∈ l, a ∈ ipre ++ [iv]) →
      c.maxp1 = s + 1 → ∀ a ∈ l ++ [c], a.maxp1 ≤ s + 1 := by
    intro l c hl hc a ha
    rcases mem_append.mp ha with ha | ha
    · exact (hs a (hl a ha)).trans (by omega)
    · exact (mem_singleton.mp ha ▸ hc).le
  have hcovers : ∀ x, x ∈ S ↔ IntervalList.Covers min maxp1 ipre x ∨
      (iv.min ≤ x ∧ x < iv.maxp1) := by
    intro x
    rw [← h.covers, covers_append, covers_cons]
    simp
  have hpre : ∀ a ∈ ipre, a ∈ ipre ++ [iv] := fun a ha ↦ mem_append_left _ ha
  have hself : ∀ lo, (⟨lo, s + 1, some lo, some s⟩ : WhcIntvnode) =
      ⟨lo, s + 1, some lo, some (s + 1 - 1)⟩ := fun lo ↦ by rw [add_sub_cancel_right]
  unfold growInterval
  rcases h.filled iv hiv with hfill | ⟨-, hvacant⟩
  · have hlt := hfill.1
    rw [if_neg (by simp [hfill.2.1])]
    by_cases hnext : iv.maxp1 = s
    · rw [if_pos hnext, update_split h.ordered, hfill.2.1, hnext, hself]
      refine ⟨IntvOk.concat hsepPre hfillPre hbefore (by omega) fun x ↦ ?_, hbound ipre _ hpre rfl⟩
      rw [Set.mem_insert_iff, hcovers, or_left_comm]
      exact or_congr Iff.rfl (by omega)
    · have hbefore' : ∀ a ∈ ipre ++ [iv], a.maxp1 < s := forall_mem_append.mpr
        ⟨fun a ha ↦ (hbefore a ha).trans_le (hle.trans hmax), by simpa using hmax.lt_of_ne hnext⟩
      have hfillAll : ∀ a ∈ ipre ++ [iv], a.Filled :=
        forall_mem_append.mpr ⟨hfillPre, by simpa using hfill⟩
      rw [if_neg hnext, show ipre ++ [iv] = (ipre ++ [iv]) ++ [] by simp, insert_split
        (fun a ha ↦ (h.min_le_maxp1 ha).trans_lt (hbefore' a ha)) (by simp), hself]
      refine ⟨IntvOk.concat h.separated hfillAll hbefore' (by omega) fun x ↦ ?_,
        hbound _ _ (fun a ha ↦ ha) rfl⟩
      rw [Set.mem_insert_iff, ← h.covers, or_comm]
      exact or_congr Iff.rfl (by omega)
  · rw [if_pos hvacant.2, update_split h.ordered, hself]
    refine ⟨IntvOk.concat hsepPre hfillPre (fun a ha ↦ ?_) (by omega) fun x ↦ ?_,
      hbound ipre _ hpre rfl⟩
    · exact (hbefore a ha).trans_le (hle.trans hmax)
    · have := hvacant.1
      rw [Set.mem_insert_iff, hcovers, or_left_comm]
      exact or_congr Iff.rfl (by omega)

lemma SeqOk.insertSeq (h : SeqOk last whc) (hmax : Greatest whc.seqs whc.maxseqNode) (md : ℤ)
    (hs : last < s) (hpos : 0 < s) (serdata : WhcSerdata) :
    ∃ whc', whcInsertSeq whc md s serdata = some whc' ∧ SeqOk s whc' ∧
      whc'.toWhcAdmin = whc.toWhcAdmin.count (newSample md s serdata) ∧
      whc'.samples = whc.samples ++ [newSample md s serdata] ∧ whc'.seqs = insert s whc.seqs ∧
      whc'.maxseqNode = some s ∧ whc'.seqSize = whc.seqSize + 1 := by
  have hopen := h.intv.openLast
  obtain ⟨iv, hiv, hmin⟩ : ∃ iv ∈ whc.seq, iv.min = whc.openIntv := by
    obtain ⟨iv, hlast, hmin⟩ := Option.map_eq_some_iff.mp hopen
    exact ⟨iv, mem_of_getLast? hlast, hmin⟩
  have hlt : ∀ x ∈ whc.seqs, x < s := fun x hx ↦ (h.le_last hx).trans_lt hs
  obtain ⟨hintv, hbound⟩ := growInterval_ok (s := s) (hmin ▸ h.intv) hiv
    fun c hc ↦ (h.bound c hc).trans (by omega)
  have hseqs : ∀ whc' : Whc, whc'.seqHash =
      linkNode whc.maxseqNode (newSample md s serdata) whc.seqHash →
      whc'.seqs = insert s whc.seqs := by
    intro whc' hhash
    ext x
    simp only [Whc.seqs, hhash, Set.mem_ofPred_eq, mem_linkNode, Set.mem_insert_iff]
    constructor
    · rintro ⟨w, ⟨v, hv, rfl⟩ | rfl, rfl⟩
      · exact .inr ⟨v, hv, rfl⟩
      · exact .inl rfl
    · rintro (rfl | ⟨v, hv, rfl⟩)
      · exact ⟨_, .inr rfl, rfl⟩
      · exact ⟨_, .inl ⟨v, hv, rfl⟩, rfl⟩
  unfold whcInsertSeq
  rw [← hmin, lookup_of_mem h.intv.ordered hiv, Option.map_some]
  refine ⟨_, rfl, ⟨?_, ?_, ?_, ?_, hbound, ?_⟩, rfl, ?_, hseqs _ rfl, rfl, rfl⟩
  · refine pairwise_append.mpr ⟨pairwise_map.mpr h.ordered, pairwise_singleton _ _,
      fun a ha b hb ↦ ?_⟩
    obtain ⟨v, hv, rfl⟩ := mem_map.mp ha
    rw [mem_singleton.mp hb]
    exact hlt v.seq (Whc.mem_seqs hv)
  · rw [hseqs _ rfl]
    intro w hw
    rcases mem_linkNode.mp hw with ⟨v, hv, rfl⟩ | rfl
    · exact (h.next v hv).insert_last hlt hmax ⟨v, hv, rfl⟩
    · exact follows_insert_last hlt
  · rw [hseqs _ rfl]
    intro w hw
    rcases mem_linkNode.mp hw with ⟨v, hv, rfl⟩ | rfl
    · exact (h.prev v hv).insert_last hlt ⟨v, hv, rfl⟩
    · exact precedes_insert_last hlt hmax
  · rw [hseqs _ rfl]
    exact hintv
  · rw [hseqs _ rfl]
    intro x hx
    rcases Set.mem_insert_iff.mp hx with rfl | hx
    · exact hpos
    · exact h.pos x hx
  · simp only [Whc.samples, linkNode, map_append, map_map, map_cons, map_nil]
    rfl

end SeqOk

end OpenSplice.Ddsi
