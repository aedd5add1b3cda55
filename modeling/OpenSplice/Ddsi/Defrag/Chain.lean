import OpenSplice.Ddsi.Defrag.Steps
import OpenSplice.Ddsi.DataFrag.Model

/-!
# The chains of fragments

`defragment` copies the fragments of the chain of a complete sample one behind the other. The chain
of an interval is `Contiguous`: no fragment starts beyond the end of what the ones before it reach.
Unlike its intervals, the chains of a record forget nothing: `RecordHistory` relates them to all
fragments the record was given, also those that added nothing, and to the sample info it holds.
`defragment_isSome_iff` gives, for a complete record, exactly when the assertions of `defragment`
hold.
-/

set_option autoImplicit false

namespace OpenSplice.Ddsi

open Library Utilities List KeyedList IntervalList

variable {fs : List Rdata} {off : ℕ} {f : Rdata} {l l' : List DefragIv} {grown : Option DefragIv}
  {B : ℕ} {root : DefragIv}

variable {pre post : List DefragIv} {hist : List (Rdata × RsampleInfo)} {sample : RsampleDefrag}
  {sz : ℕ}

/-! ### Chains -/

/-- The fragments of a chain follow each other without a hole, from the offset `off` on. -/
def Contiguous : ℕ → List Rdata → Prop
  | _, [] => True
  | off, f :: fs => f.min ≤ off ∧ Contiguous (max off f.maxp1) fs

def chainEnd (fs : List Rdata) : ℕ := fs.foldr (fun f m ↦ max f.maxp1 m) 0

@[simp] lemma chainEnd_nil : chainEnd [] = 0 := rfl

@[simp] lemma chainEnd_cons (f : Rdata) (fs : List Rdata) :
    chainEnd (f :: fs) = max f.maxp1 (chainEnd fs) := rfl

@[simp] lemma chainEnd_append (fs gs : List Rdata) :
    chainEnd (fs ++ gs) = max (chainEnd fs) (chainEnd gs) := by
  induction fs with
  | nil => simp
  | cons _ _ ih => simp [ih, max_assoc]

lemma chainEnd_le_iff {n : ℕ} : chainEnd fs ≤ n ↔ ∀ f ∈ fs, f.maxp1 ≤ n := by
  induction fs with
  | nil => simp
  | cons _ _ ih => simp [ih]

lemma Contiguous.mono {off' : ℕ} (h : Contiguous off fs) (hle : off ≤ off') :
    Contiguous off' fs := by
  induction fs generalizing off off' with
  | nil => trivial
  | cons _ _ ih => exact ⟨h.1.trans hle, ih h.2 (max_le_max_right _ hle)⟩

lemma contiguous_append {gs : List Rdata} :
    Contiguous off (fs ++ gs) ↔ Contiguous off fs ∧ Contiguous (max off (chainEnd fs)) gs := by
  induction fs generalizing off with
  | nil => simp [Contiguous]
  | cons _ _ ih => simp [Contiguous, ih, max_assoc, and_assoc]

/-- In a contiguous chain, the fragments that start within a prefix of the sample decide whether all
of them end within it. -/
lemma Contiguous.chainEnd_le (h : Contiguous off fs) (hoff : off ≤ sz)
    (hfs : ∀ f ∈ fs, f.min ≤ sz → f.maxp1 ≤ sz) : chainEnd fs ≤ sz := by
  induction fs generalizing off with
  | nil => simp
  | cons _ _ ih =>
    obtain ⟨hf, hfs⟩ := forall_mem_cons.mp hfs
    have hmaxp1 := hf (h.1.trans hoff)
    exact max_le hmaxp1 (ih h.2 (max_le hoff hmaxp1) hfs)

/-- The loop of `defragment` gets through a contiguous chain exactly if no fragment ends beyond the
buffer. -/
lemma defragmentLoop_isSome_iff {buf : List UInt8} (h : Contiguous off fs) :
    (defragmentLoop sz off buf fs).isSome ↔ ∀ f ∈ fs, f.maxp1 ≤ sz := by
  induction fs generalizing off buf with
  | nil => simp [defragmentLoop]
  | cons f _ ih =>
    obtain ⟨hmin, hcont⟩ := h
    rw [defragmentLoop, forall_mem_cons]
    by_cases hsz : sz < f.maxp1
    · simp [hsz]
    have hok : ¬ (off < f.min ∨ sz < f.maxp1) := by omega
    have hle : f.maxp1 ≤ sz := by omega
    rw [if_neg hok]
    split_ifs with hadd
    · rw [ih (hcont.mono (by omega))]
      simp [hle]
    · rw [ih (hcont.mono (by omega))]
      simp [hle]

lemma defragment_eq_loop (hfs : ∀ g, fs ≠ [g]) (sz : ℕ) :
    defragment fs sz = defragmentLoop sz 0 [] fs := by
  unfold defragment
  split
  · exact absurd rfl (hfs _)
  · rfl

/-! ### The chains of a record -/

/-- The chain of an interval: it starts where the interval does, goes on without a hole, and reaches
its end at least. Only the sentinel has no fragments. -/
structure ChainOk (a : DefragIv) : Prop where
  first : ∀ g ∈ a.frags.head?, g.min = a.min
  sentinel : a.frags = [] → a.min = 0 ∧ a.maxp1 = 0
  contiguous : Contiguous a.min a.frags
  reach : a.maxp1 ≤ chainEnd a.frags

/-- The chains of the intervals hold fragments of `fs`, and each of those is outlasted by the chain
of an interval that starts no later. -/
structure ListHistory (fs : List Rdata) (l : List DefragIv) : Prop where
  chains : ∀ a ∈ l, ChainOk a
  sound : ∀ a ∈ l, ∀ g ∈ a.frags, g ∈ fs
  complete : ∀ f ∈ fs, ∃ a ∈ l, a.min ≤ f.min ∧ f.maxp1 ≤ chainEnd a.frags

variable (mid : List DefragIv) {p c q a : DefragIv}

lemma ListHistory.replace (h : ListHistory fs (pre ++ (mid ++ post)))
    (hc : ChainOk c) (hfrags : ∀ g ∈ c.frags, g = f ∨ ∃ a ∈ mid, g ∈ a.frags) (hf : f ∈ c.frags)
    (hmin : c.min ≤ f.min) (hmid : ∀ a ∈ mid, c.min ≤ a.min ∧ chainEnd a.frags ≤ chainEnd c.frags) :
    ListHistory (fs ++ [f]) (pre ++ c :: post) where
  chains := by
    have hall := h.chains
    simp only [forall_mem_append, forall_mem_cons] at hall ⊢
    exact ⟨hall.1, hc, hall.2.2⟩
  sound := by
    have hall := h.sound
    intro a ha g hg
    rcases mem_middle.mp ha with ha | rfl | ha
    · exact mem_append_left _ (hall a (by simp [ha]) g hg)
    · rcases hfrags g hg with rfl | ⟨b, hb, hgb⟩
      · simp
      · exact mem_append_left _ (hall b (by simp [hb]) g hgb)
    · exact mem_append_left _ (hall a (by simp [ha]) g hg)
  complete := by
    intro g hg
    rcases mem_append.mp hg with hg | hg
    · obtain ⟨a, ha, hag, hend⟩ := h.complete g hg
      rcases mem_append.mp ha with ha | ha
      · exact ⟨a, by simp [ha], hag, hend⟩
      rcases mem_append.mp ha with ha | ha
      · obtain ⟨hca, hle⟩ := hmid a ha
        exact ⟨c, by simp, hca.trans hag, hend.trans hle⟩
      · exact ⟨a, by simp [ha], hag, hend⟩
    · rw [mem_singleton.mp hg]
      exact ⟨c, by simp, hmin, chainEnd_le_iff.mp le_rfl f hf⟩

section Chains

variable {f : Rdata} {p s : DefragIv}

/-- An interval grown at its end by a fragment, and perhaps by the chain of the next interval. -/
lemma ChainOk.grow (h : ChainOk p) (maxp1 : ℕ) (frags : List Rdata) (hmin : p.min ≤ f.min)
    (hreach : f.min ≤ p.maxp1) (hcont : Contiguous f.maxp1 frags)
    (hend : maxp1 ≤ max f.maxp1 (chainEnd frags)) :
    ChainOk { p with frags := p.frags ++ [f] ++ frags, maxp1 := maxp1 } where
  first := by
    intro g hg
    cases hfrags : p.frags with
    | nil =>
      have := h.sentinel hfrags
      simp only [hfrags, nil_append, cons_append, head?_cons, Option.mem_def,
        Option.some.injEq] at hg
      subst hg
      dsimp only
      omega
    | cons =>
      refine h.first g ?_
      simpa [hfrags] using hg
  sentinel := by simp
  contiguous := by
    simp only [contiguous_append, chainEnd_append, chainEnd_cons, chainEnd_nil]
    exact ⟨⟨h.contiguous, (hreach.trans h.reach).trans (le_max_right _ _), trivial⟩,
      hcont.mono (by omega)⟩
  reach := by
    simp
    omega

/-- An interval extended at its head by a fragment, and perhaps by the chain of the next one. -/
lemma ChainOk.extend (h : ChainOk s) (maxp1 : ℕ) (frags : List Rdata)
    (hs : s.min ≤ f.maxp1) (hcont : Contiguous (max f.maxp1 (chainEnd s.frags)) frags)
    (hend : maxp1 ≤ max f.maxp1 (max (chainEnd s.frags) (chainEnd frags))) :
    ChainOk ⟨f.min, maxp1, f :: s.frags ++ frags⟩ where
  first := by simp
  sentinel := by simp
  contiguous := by
    rw [contiguous_append]
    refine ⟨⟨le_rfl, h.contiguous.mono (by omega)⟩, hcont.mono ?_⟩
    rw [chainEnd_cons]
    omega
  reach := by
    simp only [cons_append, chainEnd_cons, chainEnd_append]
    exact hend

end Chains

lemma FragStep.history (hord : KeyedList.Ordered DefragIv.min l) (h : ListHistory fs l)
    (hstep : FragStep f l l' grown) : ListHistory (fs ++ [f]) l' := by
  cases hstep with
  | @contained _ _ p hmin hend =>
    refine ⟨h.chains, fun a ha g hg ↦ mem_append_left _ (h.sound a ha g hg), fun g hg ↦ ?_⟩
    rcases mem_append.mp hg with hg | hg
    · exact h.complete g hg
    · rw [mem_singleton.mp hg]
      exact ⟨p, by simp, hmin, hend.trans (h.chains p (by simp)).reach⟩
  | @grow _ _ p hmin hreach =>
    have hp := h.chains p (by simp)
    have hc := hp.grow f.maxp1 [] hmin hreach trivial (by simp)
    rw [append_nil] at hc
    refine h.replace [p] hc (fun g hg ↦ ?_) (by simp) hmin (by simp)
    simpa [or_comm] using hg
  | @growMerge _ _ p s hmin hreach _ _ hs =>
    have hp := h.chains p (by simp)
    have hsc := h.chains s (by simp)
    have hc := hp.grow s.maxp1 s.frags hmin hreach (hsc.contiguous.mono hs)
      (hsc.reach.trans (le_max_right _ _))
    refine h.replace [p, s] hc (fun g hg ↦ ?_) (by simp) hmin ?_
    · simp only [mem_append, mem_singleton] at hg
      simp
      tauto
    · simp only [forall_mem_cons, chainEnd_append]
      refine ⟨⟨le_rfl, by omega⟩, ⟨by omega, by omega⟩, by simp⟩
  | @extend pre post p s _ hlt hs | @extendEnd pre post p s _ hlt hs =>
    have hsc := h.chains s (by simp)
    have hreach := hsc.reach
    have hc : ∀ e, e ≤ max f.maxp1 (chainEnd s.frags) → ChainOk ⟨f.min, e, f :: s.frags⟩ :=
      fun e he ↦ by simpa using hsc.extend e [] hs trivial (by simpa using he)
    rw [append_cons pre p (s :: post)] at h
    rw [append_cons pre p (_ :: post)]
    refine h.replace [s] (hc _ (by omega)) (by simp) (by simp) le_rfl ?_
    simp only [forall_mem_cons, chainEnd_cons]
    exact ⟨⟨hlt.le, by omega⟩, by simp⟩
  | @extendMerge pre post p s t _ hlt hs =>
    have hsc := h.chains s (by simp)
    have htc := h.chains t (by simp)
    have hreach := htc.reach
    rw [append_cons pre p (s :: t :: post)] at hord
    obtain ⟨-, -, -, hafter, -⟩ := ordered_append_cons.mp hord
    have hst := hafter t mem_cons_self
    have hc := hsc.extend t.maxp1 t.frags hs (htc.contiguous.mono (by omega)) (by omega)
    rw [append_cons pre p (s :: t :: post)] at h
    rw [append_cons pre p (_ :: post)]
    refine h.replace [s, t] hc (fun g hg ↦ ?_) (by simp) le_rfl ?_
    · simpa [or_assoc] using hg
    · simp only [forall_mem_cons, cons_append, chainEnd_cons, chainEnd_append]
      exact ⟨⟨hlt.le, by omega⟩, ⟨by omega, by omega⟩, by simp⟩
  | @new pre post p =>
    rw [append_cons pre p post] at h
    rw [append_cons pre p (_ :: post)]
    refine h.replace [] ⟨by simp, by simp, ⟨le_rfl, trivial⟩, by simp⟩ (by simp) (by simp) le_rfl
      (by simp)

/-! ### The history of a record -/

/-- The first fragment that starts a sample. Its sample info is the one the record comes to hold. -/
def firstAtZero (hist : List (Rdata × RsampleInfo)) : Option (Rdata × RsampleInfo) :=
  hist.find? fun z ↦ z.1.min = 0

/-- A record that was given the fragments `hist`, in this order. -/
structure RecordHistory (B : ℕ) (hist : List (Rdata × RsampleInfo)) (sample : RsampleDefrag) :
    Prop where
  tree : FragTreeOk B sample
  list : ListHistory (hist.map Prod.fst) sample.ivs
  info : ∀ z ∈ firstAtZero hist, sample.sampleinfo = z.2 ∧
    ∃ p ∈ sample.ivs, p.min = 0 ∧ p.frags.head? = some z.1

lemma FragListOk.eq_of_min_eq (h : FragListOk B l) {b : DefragIv} (ha : a ∈ l) (hb : b ∈ l)
    (hab : a.min = b.min) : a = b :=
  h.ordered.eq_of_key ha hb hab

lemma FragStep.grown_of_min_eq_zero (hstep : FragStep f l l' grown) (hmin : f.min = 0)
    (hp : ∀ p ∈ l, p.min = 0 → p.frags = [] → p.maxp1 < f.maxp1) :
    (∃ p ∈ l, p.min = 0 ∧ p.frags ≠ []) ∨ ∃ p ∈ l, p.min = 0 ∧ p.frags = [] ∧ grown = some p := by
  cases hstep with
  | @contained _ _ p =>
    refine .inl ⟨p, by simp, by omega, fun hempty ↦ ?_⟩
    have := hp p (by simp) (by omega) hempty
    omega
  | @grow _ _ p | @growMerge _ _ p =>
    by_cases hempty : p.frags = []
    · exact .inr ⟨p, by simp, by omega, hempty, rfl⟩
    · exact .inl ⟨p, by simp, by omega, hempty⟩
  | extend | extendEnd | extendMerge | new => omega

lemma FragStep.mem_of_grown (hstep : FragStep f l l' (some p)) : p ∈ l := by
  cases hstep <;> simp

lemma mem_replace (hq : q ∈ pre ++ (mid ++ post)) (hmid : q ∉ mid) : q ∈ pre ++ c :: post := by
  simp only [mem_append, mem_cons] at hq ⊢
  tauto

/-- The interval at zero stays, with its chain at the front of its chain. A fragment is put behind
the chain if it grew the interval. -/
lemma FragStep.first_frags (hord : KeyedList.Ordered DefragIv.min l)
    (hstep : FragStep f l l' grown) (hq : q ∈ l) (hmin : q.min = 0) :
    ∃ q' ∈ l', q'.min = 0 ∧ ∃ frags, q'.frags = q.frags ++ frags ∧
      (grown = some q → frags.head? = some f) := by
  have hne : ∀ {s : DefragIv}, f.min < s.min → q ≠ s := by
    rintro s _ rfl
    omega
  cases hstep with
  | contained => exact ⟨q, hq, hmin, [], by simp, by simp⟩
  | @grow _ _ p =>
    by_cases hqp : q = p
    · subst hqp
      exact ⟨{ q with frags := q.frags ++ [f], maxp1 := f.maxp1 }, by simp, hmin, [f], rfl, by simp⟩
    · exact ⟨q, mem_replace [p] hq (by simpa using hqp), hmin, [], by simp,
        fun h ↦ absurd (Option.some.inj h).symm hqp⟩
  | @growMerge _ _ p s _ _ _ hlt =>
    by_cases hqp : q = p
    · subst hqp
      exact ⟨{ q with frags := q.frags ++ [f] ++ s.frags, maxp1 := s.maxp1 }, by simp, hmin,
        [f] ++ s.frags, by simp, by simp⟩
    · exact ⟨q, mem_replace [p, s] hq (by simpa using ⟨hqp, hne hlt⟩), hmin, [], by simp,
        fun h ↦ absurd (Option.some.inj h).symm hqp⟩
  | @extend pre post p s _ hlt | @extendEnd pre post p s _ hlt =>
    rw [append_cons pre p (s :: post)] at hq
    rw [append_cons pre p (_ :: post)]
    exact ⟨q, mem_replace [s] hq (by simpa using hne hlt), hmin, [], by simp, by simp⟩
  | @extendMerge pre post p s t _ hlt =>
    rw [append_cons pre p (s :: t :: post)] at hq hord
    rw [append_cons pre p (_ :: post)]
    obtain ⟨-, -, -, hafter, -⟩ := ordered_append_cons.mp hord
    have hst := hafter t mem_cons_self
    exact ⟨q, mem_replace [s, t] hq (by simpa using ⟨hne hlt, hne (hlt.trans hst)⟩), hmin, [],
      by simp, by simp⟩
  | @new pre post p =>
    rw [append_cons pre p post] at hq
    rw [append_cons pre p (_ :: post)]
    exact ⟨q, mem_replace [] hq (by simp), hmin, [], by simp, by simp⟩

lemma ListHistory.frags_ne_nil_iff (hl : FragListOk B l) (hfs : ∀ f ∈ fs, WfFrag B f)
    (h : ListHistory fs l) (hp : p ∈ l) (hmin : p.min = 0) :
    p.frags ≠ [] ↔ ∃ f ∈ fs, f.min = 0 := by
  constructor
  · intro hne
    obtain ⟨g, rest, hfrags⟩ := exists_cons_of_ne_nil hne
    refine ⟨g, h.sound p hp g (by simp [hfrags]), ?_⟩
    rw [(h.chains p hp).first g (by simp [hfrags]), hmin]
  · rintro ⟨f, hf, hzero⟩ hempty
    obtain ⟨a, ha, hamin, hend⟩ := h.complete f hf
    have hwf := hfs f hf
    unfold WfFrag at hwf
    rw [hl.eq_of_min_eq ha hp (by omega), hempty, chainEnd_nil] at hend
    omega

lemma RecordHistory.step {B : ℕ} {hist : List (Rdata × RsampleInfo)} {f : Rdata}
    {info : RsampleInfo} {sample sample' : RsampleDefrag} {grown : Option DefragIv}
    (h : RecordHistory B hist sample) (hhist : ∀ z ∈ hist, WfFrag B z.1) (hf : WfFrag B f)
    (hstep : RecordStep f info sample sample' grown) :
    RecordHistory B (hist ++ [(f, info)]) sample' where
  tree := hstep.treeOk h.tree hf
  list := by
    rw [map_append, map_singleton]
    exact hstep.step.history h.tree.list.ordered h.list
  info := by
    have hfs : ∀ g ∈ hist.map Prod.fst, WfFrag B g := by simpa using hhist
    have hiff := fun {p : DefragIv} ↦ h.list.frags_ne_nil_iff h.tree.list hfs (p := p)
    intro z hz
    rw [hstep.info]
    cases hfirst : firstAtZero hist with
    | some y =>
      have hy : y ∈ hist ∧ y.1.min = 0 := by
        have := find?_some hfirst
        exact ⟨mem_of_find?_eq_some hfirst, by simpa using this⟩
      have hzy : z = y := by
        simp only [firstAtZero, find?_append] at hz hfirst
        rw [hfirst] at hz
        simpa using hz.symm
      subst hzy
      have hgrown : ¬ grown.any (fun p ↦ p.frags = []) := by
        simp only [Option.any_eq_true, decide_eq_true_eq, not_exists, not_and]
        rintro p rfl hempty
        have hp := hstep.step.mem_of_grown
        have hsentinel := (h.list.chains p hp).sentinel hempty
        exact (hiff hp hsentinel.1).mpr ⟨z.1, mem_map_of_mem hy.1, hy.2⟩ hempty
      rw [if_neg hgrown]
      obtain ⟨hinfo, p, hp, hpmin, hhead⟩ := h.info z hfirst
      obtain ⟨q, hq, hqmin, frags, hfrags, -⟩ := hstep.step.first_frags h.tree.list.ordered hp hpmin
      exact ⟨hinfo, q, hq, hqmin, by rw [hfrags, head?_append, hhead, Option.some_or]⟩
    | none =>
      simp only [firstAtZero, find?_append] at hz hfirst
      rw [hfirst] at hz
      have hnone : ¬ ∃ g ∈ hist.map Prod.fst, g.min = 0 := by simpa [find?_eq_none] using hfirst
      by_cases hmin : f.min = 0
      · simp only [hmin, find?_cons, Option.none_or, decide_true, Option.mem_def,
          Option.some.injEq] at hz
        subst hz
        have hgrows : ∀ p ∈ sample.ivs, p.min = 0 → p.frags = [] → p.maxp1 < f.maxp1 := by
          intro p hp _ hempty
          have := ((h.list.chains p hp).sentinel hempty).2
          unfold WfFrag at hf
          omega
        rcases hstep.step.grown_of_min_eq_zero hmin hgrows with
          ⟨p, hp, hpmin, hne⟩ | ⟨p, hp, hpmin, hempty, rfl⟩
        · exact absurd ((hiff hp hpmin).mp hne) hnone
        · obtain ⟨q, hq, hqmin, frags, hfrags, hhead⟩ :=
            hstep.step.first_frags h.tree.list.ordered hp hpmin
          rw [hempty, nil_append] at hfrags
          exact ⟨by simp [hempty], q, hq, hqmin, by rw [hfrags, hhead rfl]⟩
      · simp [hmin] at hz

lemma recordHistory_new (hf : WfFrag B f) (info : RsampleInfo) :
    RecordHistory B [(f, info)] (defragRsampleNew f info) where
  tree := defragRsampleNew_treeOk hf info
  list := by
    have hchain : ChainOk ⟨f.min, f.maxp1, [f]⟩ := ⟨by simp, by simp, ⟨le_rfl, trivial⟩, by simp⟩
    have hsentinel : ChainOk ⟨0, 0, []⟩ := ⟨by simp, by simp, trivial, by simp⟩
    rw [defragRsampleNew_ivs]
    split_ifs with hmin
    · exact ⟨by simp [hchain, hsentinel], by simp, by simp⟩
    · exact ⟨by simp [hchain], by simp, by simp⟩
  info := by
    intro z hz
    simp only [firstAtZero, find?_cons, find?_nil] at hz
    split at hz
    · rename_i hmin
      rw [← Option.some.inj hz]
      refine ⟨rfl, ⟨f.min, f.maxp1, [f]⟩, ?_, by simpa using hmin, rfl⟩
      rw [defragRsampleNew_ivs]
      split_ifs <;> simp
    · simp at hz

lemma FragListOk.eq_root (h : FragListOk B l) (hroot : root ∈ l)
    (hmin : root.min = 0) (ha : a ∈ l) (hle : a.min ≤ root.maxp1) : a = root := by
  obtain ⟨pre, post, rfl⟩ := append_of_mem hroot
  obtain ⟨-, -, hbefore, -, -⟩ := ordered_append_cons.mp h.ordered
  obtain ⟨-, hrest, -⟩ := separated_append.mp h.separated
  rcases mem_middle.mp ha with ha | rfl | ha
  · have := hbefore a ha
    omega
  · rfl
  · have := (separated_cons.mp hrest).1 a ha
    omega

/-- What `nn_defrag_rsample` gives to a record: a proper fragment of its sample. -/
def IsPart (z : Rdata × RsampleInfo) : Prop :=
  z.1.maxp1 ≤ z.2.size ∧ nnRdataIsFragment z.1 z.2 = true

/-- A sample is not put together from a single fragment: a fragment that brings the sample info and
reaches the end of the sample would have been a whole sample. -/
lemma RecordHistory.root_frags_ne_singleton (h : RecordHistory B hist sample)
    (hmem : root ∈ sample.ivs) (hmin : root.min = 0) (hend : sample.sampleinfo.size ≤ root.maxp1)
    (hhist : ∀ z ∈ hist, IsPart z) {g : Rdata} : root.frags ≠ [g] := by
  intro hfrags
  have hchain := h.list.chains root hmem
  have hgmin : g.min = 0 := by rw [hchain.first g (by simp [hfrags]), hmin]
  have hreach : sample.sampleinfo.size ≤ g.maxp1 := by
    have := hchain.reach
    rw [hfrags, chainEnd_cons, chainEnd_nil] at this
    omega
  obtain ⟨y, hy, hyg⟩ := mem_map.mp (h.list.sound root hmem g (by simp [hfrags]))
  obtain ⟨z, hz⟩ : ∃ z, firstAtZero hist = some z := by
    refine Option.isSome_iff_exists.mp (find?_isSome.mpr ⟨y, hy, ?_⟩)
    simpa [hyg] using hgmin
  obtain ⟨hinfo, p, hp, hpmin, hhead⟩ := h.info z hz
  obtain rfl := h.tree.list.eq_of_min_eq hp hmem (by rw [hpmin, hmin])
  have hgz : g = z.1 := by simpa [hfrags] using hhead
  obtain ⟨hle, hfragment⟩ := hhist z (mem_of_find?_eq_some hz)
  rw [nnRdataIsFragment_eq_true] at hfragment
  rw [hinfo] at hreach
  subst hgz
  omega

/-- The assertions of `defragment` hold for the chain of a complete record exactly if no fragment
the record was given starts within the sample and ends beyond it. -/
lemma RecordHistory.defragment_isSome_iff (h : RecordHistory B hist sample)
    (hmem : root ∈ sample.ivs) (hmin : root.min = 0) (hend : sample.sampleinfo.size ≤ root.maxp1)
    (hhist : ∀ z ∈ hist, IsPart z) :
    (defragment root.frags sample.sampleinfo.size).isSome ↔
      ∀ z ∈ hist, z.1.min ≤ sample.sampleinfo.size → z.1.maxp1 ≤ sample.sampleinfo.size := by
  have hcont := (h.list.chains root hmem).contiguous
  rw [hmin] at hcont
  rw [defragment_eq_loop fun g ↦ h.root_frags_ne_singleton hmem hmin hend hhist,
    defragmentLoop_isSome_iff hcont]
  constructor
  · intro hall z hz _
    obtain ⟨a, ha, hamin, hzend⟩ := h.list.complete z.1 (mem_map_of_mem hz)
    obtain rfl := h.tree.list.eq_root hmem hmin ha (by omega)
    exact hzend.trans (chainEnd_le_iff.mpr hall)
  · intro hall
    refine chainEnd_le_iff.mp (hcont.chainEnd_le (Nat.zero_le _) fun g hg ↦ ?_)
    obtain ⟨z, hz, rfl⟩ := mem_map.mp (h.list.sound root hmem g hg)
    exact hall z hz

end OpenSplice.Ddsi
