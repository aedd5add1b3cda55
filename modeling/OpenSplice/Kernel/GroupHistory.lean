import OpenSplice.Kernel.GroupInstance
import OpenSplice.Library.SortedList

/-!
# The history of a group instance

`Stored others inst l` says that the samples of a group instance are those of the list `l`, oldest
first, and so are the counts. `insertSample` is described on the list: the search splits it at the
place of the message (`findPosition_spec`), the samples pushed out are the first ones and the place
is still right (`pushOut_spec`), and the new sample is linked in at the split (`linkSample_spec`).
`groupInstance_history` is about the order by source timestamp and a history of bounded depth.
-/

set_option autoImplicit false

namespace OpenSplice.Kernel

open OpenSplice.Library.LinkedList OpenSplice.Library.SortedList List GroupInstance

lemma messageCheckDuplicate_iff {m1 m2 : Message} :
    messageCheckDuplicate m1 m2 ↔ m1 = m2 ∨ m1.sequenceNumber = m2.sequenceNumber ∧
      m1.writerGID = m2.writerGID ∧ m1.state.implicit = false ∧ m2.state.implicit = false := by
  simp [messageCheckDuplicate, and_assoc]

lemma messageCheckDuplicate_trans {m1 m2 m3 : Message}
    (h12 : messageCheckDuplicate m1 m2) (h23 : messageCheckDuplicate m2 m3) :
    messageCheckDuplicate m1 m3 := by
  rw [messageCheckDuplicate_iff] at *
  rcases h12 with rfl | ⟨hnumber, hwriter, h1, h2⟩
  · exact h23
  · rcases h23 with rfl | ⟨hnumber', hwriter', -, h3⟩
    · exact .inr ⟨hnumber, hwriter, h1, h2⟩
    · exact .inr ⟨hnumber.trans hnumber', hwriter.trans hwriter', h1, h3⟩

/-- Messages of the same place are duplicates. -/
lemma messageCheckDuplicate_of_compare {m1 m2 : Message} (h : messageCompare m1 m2 = .eq) :
    messageCheckDuplicate m1 m2 := by
  rw [messageCheckDuplicate_iff]
  rw [messageCompare] at h
  split_ifs at h with heq
  · exact .inl heq
  · rw [messageOrder] at h
    split_ifs at h with himplicit
    simp only [Ordering.then_eq_eq] at h
    obtain ⟨-, hwriter, hseq, -⟩ := h
    have hplain := fun hi ↦ himplicit ⟨hi, hwriter⟩
    have h1 : m1.state.implicit = false := by simpa using fun hi ↦ hplain (.inl hi)
    have h2 : m2.state.implicit = false := by simpa using fun hi ↦ hplain (.inr hi)
    rw [seqNrCompare, if_neg (by simp [h1]), if_neg (by simp [h2])] at hseq
    exact .inr ⟨compare_eq_iff_eq.mp hseq, gidCompare_eq_iff.mp hwriter, h1, h2⟩

namespace GroupInstance

variable {m : Message} {seen : List Message}

def writes (l : List (ℕ × Message)) : ℕ := l.countP fun x ↦ x.2.state.write

def disposes (l : List (ℕ × Message)) : ℕ := l.countP fun x ↦ x.2.state.disposed

def dataKeys (l : List (ℕ × Message)) : List SourceKey :=
  (l.filter fun x ↦ x.2.state.write).map fun x ↦ x.2.sourceKey

section Counts

variable {l a b : List (ℕ × Message)} {x : ℕ × Message}

@[simp]
lemma writes_append : writes (a ++ b) = writes a + writes b := countP_append

@[simp]
lemma writes_cons : writes (x :: l) = (if x.2.state.write then 1 else 0) + writes l := by
  rw [writes, countP_cons, Nat.add_comm]
  rfl

@[simp]
lemma disposes_append : disposes (a ++ b) = disposes a + disposes b := countP_append

@[simp]
lemma disposes_cons : disposes (x :: l) = (if x.2.state.disposed then 1 else 0) + disposes l := by
  rw [disposes, countP_cons, Nat.add_comm]
  rfl

@[simp]
lemma dataKeys_append : dataKeys (a ++ b) = dataKeys a ++ dataKeys b := by
  simp [dataKeys]

lemma dataKeys_cons_write (h : x.2.state.write) :
    dataKeys (x :: l) = x.2.sourceKey :: dataKeys l := by
  simp [dataKeys, h]

lemma dataKeys_cons_not_write (h : x.2.state.write = false) : dataKeys (x :: l) = dataKeys l := by
  simp [dataKeys, h]

@[simp]
lemma length_dataKeys : (dataKeys l).length = writes l := by
  rw [dataKeys, length_map, writes, countP_eq_length_filter]

lemma mem_dataKeys {k : SourceKey} :
    k ∈ dataKeys l ↔ ∃ x ∈ l, x.2.state.write ∧ x.2.sourceKey = k := by
  simp [dataKeys, and_assoc]

lemma dataKeys_eq_map :
    dataKeys l = ((l.map Prod.snd).filter fun m ↦ m.state.write).map Message.sourceKey := by
  simp only [dataKeys, filter_map, map_map]
  rfl

end Counts

section AsList

variable {qos : GroupQos} {samples : List Message}

lemma pushOutOldest_of_lt {depth : ℤ} {newer : ℕ} {older : List Message}
    (h : ((older.countP (·.state.write) + newer : ℕ) : ℤ) < depth) :
    pushOutOldest depth newer older = older := by
  cases older with
  | nil => rfl
  | cons => exact if_neg (not_le.mpr h)

/-- Where a message is put in a list of samples in the order of their sources. -/
lemma insertInto_append {older newer : List Message} (hqos : qos.bySourceTime) (hm : m.isStored)
    (holder : ∀ x ∈ older, messageCompare m x ≠ .lt)
    (hnewer : ∀ x ∈ newer, messageCompare m x = .lt) :
    insertInto qos m (older ++ newer) =
      if older.getLast?.any (messageCompare m · = .eq) || (qos.history = .keepLast &&
          !(older ++ newer).isEmpty && qos.depth ≤ newer.countP (·.state.write)) then older ++ newer
      else (if m.state.write ∧ qos.history = .keepLast then
        pushOutOldest qos.depth (newer.countP (·.state.write)) older else older) ++ m :: newer := by
  have hsplit : (older ++ newer).rdropWhile (messageCompare m · = .lt) = older ∧
      (older ++ newer).rtakeWhile (messageCompare m · = .lt) = newer := by
    induction newer using reverseRecOn with
    | nil =>
      rw [append_nil, rdropWhile_eq_self_iff, rtakeWhile_eq_nil_iff]
      exact ⟨fun h ↦ by simpa using holder _ (getLast_mem h),
        fun h ↦ by simpa using holder _ (getLast_mem h)⟩
    | append_singleton newer x ih =>
      have hx := hnewer x (by simp)
      have ih := ih fun y hy ↦ hnewer y (by simp [hy])
      simp [← append_assoc, hx, ih]
  simp only [insertInto, hm, hqos, if_true, Bool.true_and, hsplit.1, hsplit.2]

/-- With room for a write a message is put between the others, unless it is not stored, there are
enough newer writes, or it is there already. -/
lemma insertInto_spec (hroom : m.state.write → qos.history = .keepLast →
      (samples.countP (·.state.write) : ℤ) < qos.depth) :
    (∃ older newer, samples = older ++ newer ∧ insertInto qos m samples = older ++ m :: newer ∧
      m.isStored) ∨
    insertInto qos m samples = samples ∧ (m.isStored →
      (qos.history = .keepLast ∧ qos.depth ≤ samples.countP (·.state.write)) ∨
        ∃ x ∈ samples, messageCheckDuplicate m x) := by
  unfold insertInto
  extract_lets below older newer duplicate notStored
  have hsplit : older ++ newer = samples := rdropWhile_append_rtakeWhile ..
  have hcount : samples.countP (·.state.write) =
      older.countP (·.state.write) + newer.countP (·.state.write) := by
    rw [← hsplit, countP_append]
  split_ifs with hstored hsame hpush
  · refine .inr ⟨rfl, fun _ ↦ ?_⟩
    rcases Bool.or_eq_true_iff.mp hsame with hdup | hnot
    · refine .inr ?_
      by_cases hsource : qos.bySourceTime
      · simp only [duplicate, hsource, if_true] at hdup
        obtain ⟨x, hx, heq⟩ := (Option.any_eq_true _ _).mp hdup
        refine ⟨x, ?_, messageCheckDuplicate_of_compare (of_decide_eq_true heq)⟩
        rw [← hsplit]
        exact mem_append_left _ (mem_of_getLast? hx)
      · simpa only [duplicate, hsource, if_false, Bool.false_eq_true, any_eq_true] using hdup
    · simp only [notStored, Bool.and_eq_true, decide_eq_true_eq] at hnot
      exact .inl ⟨hnot.1.1.2, by omega⟩
  · refine .inl ⟨older, newer, hsplit.symm, ?_, hstored⟩
    rw [pushOutOldest_of_lt (hcount ▸ hroom hpush.1 hpush.2)]
  · exact .inl ⟨older, newer, hsplit.symm, rfl, hstored⟩
  · exact .inr ⟨rfl, fun h ↦ absurd h hstored⟩

end AsList

/-- The instance has the samples of the list, next to `others` of other instances. -/
structure Stored (others : ℤ) (inst : GroupInstance) (l : List (ℕ × Message)) : Prop where
  chained : Chained inst.samples l inst.oldest inst.newest
  fresh : ∀ p ∈ addresses l, p < inst.fresh
  count_eq : inst.count = writes l + disposes l
  history_eq : inst.historySampleCount = writes l
  resource_eq : inst.resourceSampleCount = writes l
  group_eq : inst.groupSampleCount = others + writes l

namespace Stored

variable {others : ℤ} {inst : GroupInstance} {l a b : List (ℕ × Message)}

section

variable (h : Stored others inst l)
include h

lemma length_le : l.length ≤ inst.fresh := by
  have hsubset : addresses l ⊆ range inst.fresh :=
    fun p hp ↦ mem_range.mpr (h.fresh p hp)
  have hle := (subperm_of_subset h.chained.nodup hsubset).length_le
  simpa using hle

lemma walkNewer : inst.walkNewer = some l := by
  rw [GroupInstance.walkNewer, h.chained.oldest_eq]
  exact h.chained.segment.walk_newer h.length_le

lemma walkOlder : inst.walkOlder = some l.reverse := by
  rw [GroupInstance.walkOlder, h.chained.newest_eq]
  exact h.chained.segment.walk_older h.length_le

end

end Stored

section PushOut

variable {others : ℤ} {inst : GroupInstance} {l a b : List (ℕ × Message)}

lemma uncount_samples (m : Message) (inst : GroupInstance) :
    (uncount m inst).samples = inst.samples ∧ (uncount m inst).fresh = inst.fresh ∧
      (uncount m inst).newest = inst.newest ∧ (uncount m inst).empty = inst.empty := by
  unfold uncount
  split_ifs <;> exact ⟨rfl, rfl, rfl, rfl⟩

lemma pushOldest_spec {p : ℕ} {m : Message} (h : Stored others inst ((p, m) :: l))
    (ptr : Option ℕ) :
    ∃ inst', pushOldest ptr inst = some (if some p = ptr then none else ptr, inst') ∧
      Stored others inst' l ∧ inst'.fresh = inst.fresh ∧ inst'.empty = inst.empty := by
  obtain ⟨hnode, samples, hlink, hchained⟩ := h.chained.removeOldest
  obtain ⟨hsamples, hfresh, hnewest, hempty⟩ := uncount_samples m inst
  have holdest : inst.oldest = some p := h.chained.oldest_eq
  refine ⟨{ uncount m inst with
    samples := free samples p
    oldest := first l none
    newest := if (first l none).isSome then (uncount m inst).newest else none }, ?_, ?_,
    hfresh, hempty⟩
  · simp [pushOldest, holdest, hnode, hsamples, hlink]
  · refine ⟨⟨hchained.nodup, hchained.segment, rfl, ?_⟩, ?_, ?_, ?_, ?_, ?_⟩
    · rw [hnewest, h.chained.newest_eq]
      cases l <;> rfl
    · intro q hq
      rw [hfresh]
      exact h.fresh q (mem_cons_of_mem _ hq)
    all_goals
      have hcount := h.count_eq
      have hhistory := h.history_eq
      have hresource := h.resource_eq
      have hgroup := h.group_eq
      cases hd : m.state.disposed <;> cases hw : m.state.write <;>
        simp_all [uncount] <;> omega

/-- The samples pushed out are the first ones before the place of the new message, no more than it
takes. -/
lemma pushOut_spec (depth : ℤ) {fuel : ℕ} (h : Stored others inst (a ++ b))
    (hb : writes b < depth) (hfuel : a.length ≤ fuel) :
    ∃ pushed older inst', a = pushed ++ older ∧
      pushOut depth fuel (last none a) inst = some (last none older, inst') ∧
        Stored others inst' (older ++ b) ∧ writes (older ++ b) < depth ∧
          (pushed = [] ∨ (writes (older ++ b) : ℤ) + 1 = depth) ∧
            inst'.fresh = inst.fresh ∧ inst'.empty = inst.empty ∧
              older.map Prod.snd = pushOutOldest depth (writes b) (a.map Prod.snd) := by
  induction a generalizing fuel inst with
  | nil =>
    have hstop : ¬depth ≤ inst.historySampleCount := by
      rw [h.history_eq]
      simpa using hb
    refine ⟨[], [], inst, rfl, ?_, h, by simpa using hb, .inl rfl, rfl, rfl, rfl⟩
    cases fuel <;> simp [pushOut, hstop]
  | cons x a ih =>
    obtain ⟨p, m⟩ := x
    obtain ⟨fuel, rfl⟩ := Nat.exists_eq_succ_of_ne_zero (n := fuel) (by simp at hfuel; omega)
    have hcount : ((((p, m) :: a).map Prod.snd).countP (·.state.write) + writes b : ℕ) =
        inst.historySampleCount := by
      rw [h.history_eq, countP_map, writes_append]
      rfl
    by_cases hfull : depth ≤ inst.historySampleCount
    · obtain ⟨inst1, hpush, hstored, hfresh1, hempty1⟩ :=
        pushOldest_spec h (last none ((p, m) :: a))
      have hnodup : (addresses ((p, m) :: a)).Nodup := by
        have hall := h.chained.nodup
        rw [addresses, map_append, nodup_append] at hall
        exact hall.1
      rw [last_cons_of_nodup hnodup] at hpush
      obtain ⟨pushed, older, inst', rfl, hout, hstored', hroom, hpushed, hfresh, hempty, hmap⟩ :=
        ih hstored (by simpa using hfuel)
      refine ⟨(p, m) :: pushed, older, inst', rfl, ?_, hstored', hroom, .inr ?_,
        hfresh.trans hfresh1, hempty.trans hempty1,
        hmap.trans (if_pos (hfull.trans_eq hcount.symm)).symm⟩
      · rw [pushOut, if_pos hfull, hpush]
        exact hout
      · -- If nothing more went out, the history was exactly full.
        rcases hpushed with rfl | heq
        · have hcount := h.history_eq
          simp only [nil_append, cons_append, writes_cons] at hcount hroom ⊢
          split_ifs at hcount <;> omega
        · exact heq
    · refine ⟨[], (p, m) :: a, inst, rfl, by simp [pushOut, hfull], h, ?_, .inl rfl, rfl, rfl,
        (pushOutOldest_of_lt (hcount.trans_lt (not_le.mp hfull))).symm⟩
      rw [h.history_eq] at hfull
      simpa using hfull

end PushOut

section Link

variable {others : ℤ} {inst : GroupInstance} {a b : List (ℕ × Message)} {qos : GroupQos}

/-- The new sample is linked in at the place that was found for it. -/
lemma linkSample_spec (inst : GroupInstance) (hqos : qos.bySourceTime)
    (h : Chained inst.samples (a ++ b) inst.oldest inst.newest)
    (hfresh : inst.fresh ∉ addresses (a ++ b)) (m : Message) :
    ∃ samples oldest newest, linkSample qos m (last none a) inst = some { inst with
        samples := samples, fresh := inst.fresh + 1, oldest := oldest, newest := newest } ∧
        Chained samples (a ++ (inst.fresh, m) :: b) oldest newest := by
  obtain ⟨mem1, mem2, hmem1, hmem2, hchained⟩ := h.insert hfresh m
  have holdest := h.oldest_eq
  have hnewest := h.newest_eq
  refine ⟨mem2, _, _, ?_, hchained⟩
  rcases eq_nil_or_concat' a with rfl | ⟨a, ⟨q, w⟩, rfl⟩
  · -- Before all others.
    obtain rfl : mem1 = mem2 := Option.some_inj.mp hmem2
    simp only [nil_append, last] at holdest hnewest hmem1 ⊢
    simp only [linkSample, if_pos hqos, linkOldest, holdest, hmem1, Option.bind_eq_bind,
      Option.bind_some, hnewest]
    cases b <;> rfl
  · rw [last_concat] at hmem1 hmem2 ⊢
    simp only [linkSample, if_pos hqos]
    cases b with
    | nil =>
      -- Behind all others.
      rw [append_nil, last_concat] at hnewest
      obtain rfl : store inst.samples inst.fresh ⟨m, some q, none⟩ = mem1 :=
        Option.some_inj.mp hmem1
      rw [if_neg (by simp [hnewest]), linkNewest, hnewest]
      rw [hmem2, holdest]
      simp
    | cons x b =>
      -- Between two neighbours, the first of which is not the newest sample.
      have hnode : inst.samples q = some ⟨w, last none a, some x.1⟩ := by
        have hsegment := h.segment
        rw [append_assoc, segment_append] at hsegment
        exact hsegment.2.1
      have hne : some q ≠ inst.newest := by
        obtain ⟨p, hp, hlast⟩ := last_mem (some q) (cons_ne_nil x b)
        have hnodup := h.nodup
        rw [addresses, map_append, nodup_append] at hnodup
        rw [hnewest, last_append, last_concat, hlast]
        exact fun heq ↦ hnodup.2.2 q (by simp) p hp (Option.some_inj.mp heq)
      rw [if_pos hne, linkBehind, hnode]
      simp only [first_cons, linkOlder, linkNewer] at hmem1 hmem2
      simp only [Option.bind_eq_bind, Option.bind_some, hmem1, hmem2, holdest, hnewest]
      simp

lemma Stored.addCount (h : Stored others inst (a ++ b)) {m : Message}
    {samples : Memory ℕ Message} {oldest newest : Option ℕ}
    (hchained : Chained samples (a ++ (inst.fresh, m) :: b) oldest newest) :
    Stored others (addCount m { inst with
      samples := samples, fresh := inst.fresh + 1, oldest := oldest, newest := newest
      resourceSampleCount := inst.resourceSampleCount + if m.state.write then 1 else 0
      groupSampleCount := inst.groupSampleCount + if m.state.write then 1 else 0 })
      (a ++ (inst.fresh, m) :: b) := by
  have hfresh : ∀ p ∈ addresses (a ++ (inst.fresh, m) :: b), p < inst.fresh + 1 := by
    intro p hp
    simp only [addresses, map_append, map_cons, mem_append, mem_cons] at hp
    rcases hp with hp | rfl | hp
    · exact (h.fresh p (by rw [addresses, map_append]; simp [hp])).trans (Nat.lt_succ_self _)
    · exact Nat.lt_succ_self _
    · exact (h.fresh p (by rw [addresses, map_append]; simp [hp])).trans (Nat.lt_succ_self _)
  have hcount := h.count_eq
  have hhistory := h.history_eq
  have hresource := h.resource_eq
  have hgroup := h.group_eq
  simp only [writes_append, disposes_append] at hcount hhistory hresource hgroup
  cases hd : m.state.disposed <;> cases hw : m.state.write <;>
    refine ⟨by simpa [GroupInstance.addCount, hd, hw] using hchained,
      by simpa [GroupInstance.addCount, hd, hw] using hfresh, ?_, ?_, ?_, ?_⟩ <;>
    simp [GroupInstance.addCount, hd, hw] <;> omega

lemma addCount_empty (m : Message) (inst : GroupInstance) :
    (addCount m inst).empty = inst.empty := by
  unfold addCount
  split_ifs <;> rfl

/-- The bit of the instance that follows its newest sample can be found. -/
lemma updateState_spec {l : List (ℕ × Message)} (h : Stored others inst l) (hl : l ≠ []) :
    ∃ inst', updateState inst = some inst' ∧ Stored others inst' l ∧ inst'.empty = inst.empty := by
  obtain ⟨init, ⟨p, m⟩, rfl⟩ := (eq_nil_or_concat' l).resolve_left hl
  have hnewest := h.chained.newest_eq.trans last_concat
  have hnode := (segment_append.mp h.chained.segment).2.1
  refine ⟨{ inst with disposed := m.state.disposed }, ?_, ⟨h.chained, h.fresh, h.count_eq,
    h.history_eq, h.resource_eq, h.group_eq⟩, rfl⟩
  simp [updateState, hnewest, hnode]

end Link

/-- The search finds a sample of the same key, or the samples below and above the message. -/
lemma findPosition_spec {samples : Memory ℕ Message} {a : List (ℕ × Message)} {next : Option ℕ}
    {fuel : ℕ} (hm : m.state.implicit = false) (ha : ∀ x ∈ a, x.2.state.implicit = false)
    (hsorted : (a.map fun x ↦ x.2.sourceKey).Pairwise (· < ·))
    (hsegment : Segment samples none a next) (hfuel : a.length ≤ fuel) (n : ℤ) :
    (∃ x ∈ a, x.2.sourceKey = m.sourceKey ∧
      findPosition samples m fuel (last none a) n = some .duplicate) ∨
    ∃ older newer, a = older ++ newer ∧ (∀ x ∈ older, x.2.sourceKey < m.sourceKey) ∧
      (∀ x ∈ newer, m.sourceKey < x.2.sourceKey) ∧ findPosition samples m fuel (last none a) n =
          some (.behind (last none older) (n + writes newer)) := by
  induction a using reverseRecOn generalizing next fuel n with
  | nil =>
    cases fuel <;> simp [findPosition, writes]
  | append_singleton a x ih =>
    obtain ⟨fuel, rfl⟩ := Nat.exists_eq_succ_of_ne_zero (n := fuel) (by simp at hfuel; omega)
    obtain ⟨hinit, hnode, -⟩ := segment_append.mp hsegment
    rw [map_append, pairwise_append] at hsorted
    have hcompare := messageCompare_eq_compare hm (ha x (by simp))
    rw [last_concat, findPosition, hnode]
    simp only [Option.bind_eq_bind, Option.bind_some, hcompare]
    rcases lt_trichotomy m.sourceKey x.2.sourceKey with hlt | heq | hgt
    · rw [compare_lt_iff_lt.mpr hlt]
      rcases ih (fun y hy ↦ ha y (by simp [hy])) hsorted.1 hinit (by simpa using hfuel)
        (if x.2.state.write then n + 1 else n) with
        ⟨y, hy, hkey, hfind⟩ | ⟨older, newer, rfl, holder, hnewer, hfind⟩
      · exact .inl ⟨y, by simp [hy], hkey, hfind⟩
      · refine .inr ⟨older, newer ++ [x], by simp, holder, ?_, ?_⟩
        · intro y hy
          rcases mem_append.mp hy with hy | hy
          · exact hnewer y hy
          · rwa [mem_singleton.mp hy]
        · have hwrites : (if x.2.state.write then n + 1 else n) + (writes newer : ℤ) =
              n + writes (newer ++ [x]) := by
            simp only [writes_append, writes_cons]
            split_ifs <;> simp only [writes, countP_nil] <;> omega
          rw [← hwrites]
          exact hfind
    · rw [compare_eq_iff_eq.mpr heq]
      exact .inl ⟨x, by simp, heq.symm, rfl⟩
    · rw [compare_gt_iff_gt.mpr hgt]
      refine .inr ⟨a ++ [x], [], by simp, ?_, by simp, by simp [writes]⟩
      intro y hy
      rcases mem_append.mp hy with hy | hy
      · exact (hsorted.2.2 _ (mem_map_of_mem hy) x.2.sourceKey (by simp)).trans hgt
      · rwa [mem_singleton.mp hy]

/-! ### Resources -/

/-- A durable topic that keeps the last `d` samples in the order of their source, with limits that
leave room for them next to `others` of other instances. The group is not on request: such a group
does not count its samples, and so nothing is claimed of its limits. -/
structure KeepsLast (qos : GroupQos) (d : ℕ) (others : ℤ) : Prop where
  bySourceTime : qos.bySourceTime = true
  history : qos.history = .keepLast
  depth : qos.depth = d
  pos : 1 ≤ d
  maxSamples : ∀ limit ∈ qos.maxSamples, others + d ≤ limit
  maxSamplesPerInstance : ∀ limit ∈ qos.maxSamplesPerInstance, d ≤ limit
  countsSamples : qos.countsSamples = true

section Store

variable {others : ℤ} {inst : GroupInstance} {l a b : List (ℕ × Message)} {qos : GroupQos} {d : ℕ}
  {m : Message}

lemma claimResource_spec (hqos : KeepsLast qos d others) (h : Stored others inst l)
    (hroom : m.state.write → writes l < d) :
    claimResource qos m inst = some { inst with
      resourceSampleCount := inst.resourceSampleCount + if m.state.write then 1 else 0
      groupSampleCount := inst.groupSampleCount + if m.state.write then 1 else 0 } := by
  unfold claimResource
  rw [hqos.countsSamples]
  cases hw : m.state.write with
  | false => simp
  | true =>
    have hlt := hroom hw
    have hgroup : qos.maxSamples.any (fun x ↦ x ≤ inst.groupSampleCount) = false := by
      rw [Option.any_eq_false]
      intro limit hlimit
      have hle := hqos.maxSamples limit hlimit
      have heq := h.group_eq
      rw [decide_eq_false_iff_not]
      omega
    have hinstance :
        qos.maxSamplesPerInstance.any (fun x ↦ x ≤ inst.resourceSampleCount) = false := by
      rw [Option.any_eq_false]
      intro limit hlimit
      have hle := hqos.maxSamplesPerInstance limit hlimit
      have heq := h.resource_eq
      rw [decide_eq_false_iff_not]
      omega
    simp [hgroup, hinstance]

lemma storeSample_spec (hqos : KeepsLast qos d others) (h : Stored others inst (a ++ b))
    (hroom : m.state.write → writes (a ++ b) < d) :
    ∃ inst' p, storeSample qos m (last none a) inst = some (.success, inst') ∧
      Stored others inst' (a ++ (p, m) :: b) ∧ inst'.empty = inst.empty := by
  have hfresh : inst.fresh ∉ addresses (a ++ b) := fun hmem ↦ lt_irrefl _ (h.fresh _ hmem)
  obtain ⟨samples, oldest, newest, hlink, hchained⟩ := linkSample_spec { inst with
      resourceSampleCount := inst.resourceSampleCount + if m.state.write then 1 else 0
      groupSampleCount := inst.groupSampleCount + if m.state.write then 1 else 0 }
      hqos.bySourceTime h.chained hfresh m
  obtain ⟨inst', hstate, hstored, hempty⟩ := updateState_spec (h.addCount hchained) (by simp)
  refine ⟨inst', inst.fresh, ?_, hstored, ?_⟩
  · rw [storeSample, claimResource_spec hqos h hroom]
    simp [hlink, hstate]
  · rw [hempty, addCount_empty]

end Store

/-! ### The greatest writes -/

def writeKeys (seen : List Message) : Set SourceKey :=
  {k | ∃ m ∈ seen, m.state.write = true ∧ m.sourceKey = k}

lemma writeKeys_cons_write (h : m.state.write) :
    writeKeys (m :: seen) = insert m.sourceKey (writeKeys seen) := by
  ext k
  have hcomm : m.sourceKey = k ↔ k = m.sourceKey := eq_comm
  simp [writeKeys, h, hcomm]

lemma writeKeys_cons_not_write (h : m.state.write = false) :
    writeKeys (m :: seen) = writeKeys seen := by
  simp [writeKeys, h]

/-- Of the messages seen, the instance holds the greatest writes, in the order of their keys. -/
structure Held (d : ℕ) (others : ℤ) (seen : List Message) (inst : GroupInstance)
    (l : List (ℕ × Message)) : Prop where
  stored : Stored others inst l
  empty_iff : inst.empty = true ↔ l = []
  mem : ∀ x ∈ l, x.2 ∈ seen
  pairwise : (l.map fun x ↦ x.2.sourceKey).Pairwise (· < ·)
  greatest : GreatestOf d (writeKeys seen) (dataKeys l)

/-- A message of the kind that is stored: not implicit, no registration, and no mere
unregistration. -/
def IsSample (m : Message) : Prop :=
  m.state.implicit = false ∧ m.state.register = false ∧
    (m.state.unregister = true → m.state.disposed = true)

instance (m : Message) : Decidable (IsSample m) := inferInstanceAs (Decidable (_ ∧ _ ∧ _))

namespace Held

variable {d : ℕ} {others : ℤ} {seen : List Message} {inst : GroupInstance}
  {l older newer : List (ℕ × Message)} {m : Message} {qos : GroupQos}

/-- Nothing changes, since the message adds nothing to the greatest writes. -/
lemma of_unchanged (h : Held d others seen inst l) (hgreatest : m.state.write →
      GreatestOf d (insert m.sourceKey (writeKeys seen)) (dataKeys l)) :
    Held d others (m :: seen) inst l := by
  refine ⟨h.stored, h.empty_iff, fun x hx ↦ mem_cons_of_mem m (h.mem x hx), h.pairwise, ?_⟩
  cases hw : m.state.write with
  | false =>
    rw [writeKeys_cons_not_write hw]
    exact h.greatest
  | true =>
    rw [writeKeys_cons_write hw]
    exact hgreatest hw

lemma of_stored (pushed : List (ℕ × Message))
    (h : Held d others seen inst (pushed ++ (older ++ newer)))
    {inst' : GroupInstance} {p : ℕ}
    (hstored : Stored others inst' (older ++ (p, m) :: newer)) (hempty : inst'.empty = false)
    (holder : ∀ x ∈ pushed ++ older, x.2.sourceKey < m.sourceKey)
    (hnewer : ∀ x ∈ newer, m.sourceKey < x.2.sourceKey)
    (hgreatest : GreatestOf d (writeKeys (m :: seen)) (dataKeys (older ++ (p, m) :: newer))) :
    Held d others (m :: seen) inst' (older ++ (p, m) :: newer) := by
  refine ⟨hstored, by simp [hempty], ?_, ?_, hgreatest⟩
  · intro x hx
    rcases mem_append.mp hx with hx | hx
    · exact mem_cons_of_mem m (h.mem x (by simp [hx]))
    · rcases mem_cons.mp hx with rfl | hx
      · exact mem_cons_self
      · exact mem_cons_of_mem m (h.mem x (by simp [hx]))
  · have hpairwise := h.pairwise
    simp only [map_append, map_cons] at hpairwise ⊢
    refine pairwise_insert hpairwise (fun k hk ↦ ?_) fun k hk ↦ ?_
    · have hmem := mem_of_getLast? hk
      rw [← map_append] at hmem
      obtain ⟨x, hx, rfl⟩ := mem_map.mp hmem
      exact holder x hx
    · obtain ⟨x, hx, rfl⟩ := mem_map.mp hk
      exact hnewer x hx

/-- A message with the key of a sample is there already. -/
lemma insertInto_eq_self (h : Held d others seen inst l) (hqos : qos.bySourceTime)
    (hm : m.isStored)
    (hcompare : ∀ x ∈ l, messageCompare m x.2 = compare m.sourceKey x.2.sourceKey)
    {x : ℕ × Message} (hx : x ∈ l) (hkey : x.2.sourceKey = m.sourceKey) :
    insertInto qos m (l.map Prod.snd) = l.map Prod.snd := by
  obtain ⟨a, b, rfl⟩ := append_of_mem hx
  obtain ⟨-, hb, hab⟩ := pairwise_append.mp (pairwise_map.mp h.pairwise)
  rw [append_cons] at hcompare ⊢
  rw [map_append, insertInto_append hqos hm]
  · simp [hcompare x (by simp), hkey]
  · refine forall_mem_map.mpr fun y hy ↦ ?_
    rw [hcompare y (mem_append_left b hy), Ne, compare_lt_iff_lt, not_lt, ← hkey]
    rcases mem_append.mp hy with hy | hy
    · exact (hab y hy x mem_cons_self).le
    · rw [mem_singleton.mp hy]
  · refine forall_mem_map.mpr fun y hy ↦ ?_
    rw [hcompare y (mem_append_right _ hy), compare_lt_iff_lt, ← hkey]
    exact rel_of_pairwise_cons hb hy

section

variable (hqos : KeepsLast qos d others)

include hqos

lemma findPlace (h : Held d others seen inst l) (hl : l ≠ []) (hm : IsSample m)
    (hseen : ∀ x ∈ seen, IsSample x) :
    (∃ x ∈ l, x.2.sourceKey = m.sourceKey ∧ findPlace qos m inst = some (.inl .duplicate)) ∨
    ∃ older newer, l = older ++ newer ∧ (∀ x ∈ older, x.2.sourceKey < m.sourceKey) ∧
      (∀ x ∈ newer, m.sourceKey < x.2.sourceKey) ∧ findPlace qos m inst =
          some (if d ≤ writes newer then .inl .successNotStored else .inr (last none older)) := by
  obtain ⟨head, -, hhead⟩ := last_mem none hl
  have hnewest : inst.newest = some head := h.stored.chained.newest_eq.trans hhead
  rcases findPosition_spec hm.1 (fun x hx ↦ (hseen x.2 (h.mem x hx)).1) h.pairwise
    h.stored.chained.segment h.stored.length_le 0 with
    ⟨x, hx, hkey, hfind⟩ | ⟨older, newer, hsplit, holder, hnewer, hfind⟩
  · rw [hhead] at hfind
    exact .inl ⟨x, hx, hkey, by
      simp [GroupInstance.findPlace, hqos.bySourceTime, hnewest, hfind]⟩
  · rw [hhead] at hfind
    refine .inr ⟨older, newer, hsplit, holder, hnewer, ?_⟩
    have hdeep : (qos.history = .keepLast ∧ qos.depth ≤ 0 + (writes newer : ℤ)) ↔
        d ≤ writes newer := by
      simp only [hqos.history, hqos.depth, true_and]
      omega
    simp only [GroupInstance.findPlace, hqos.bySourceTime, hnewest, hfind, Option.bind_eq_bind,
      Option.bind_some, if_true, hdeep]
    split_ifs <;> rfl

lemma insert_first (h : Held d others seen inst []) :
    ∃ inst' l', (match claimResource qos m inst with
      | none => some (.rejected, inst)
      | some inst => do
        let inst ← updateState (addCount m (linkFirst m inst))
        some (.success, inst)) = some (GroupWriteResult.success, inst') ∧
      Held d others (m :: seen) inst' l' ∧ l'.map Prod.snd = [m] := by
  have hnone : Stored others { inst with empty := false } ([] ++ []) :=
    ⟨h.stored.chained, h.stored.fresh, h.stored.count_eq, h.stored.history_eq,
      h.stored.resource_eq, h.stored.group_eq⟩
  have hchained : Chained (store inst.samples inst.fresh ⟨m, none, none⟩)
      ([] ++ (inst.fresh, m) :: []) (some inst.fresh) (some inst.fresh) :=
    ⟨by simp, ⟨Function.update_self _ _ _, trivial⟩, rfl, rfl⟩
  obtain ⟨inst', hstate, hstored, hempty⟩ := updateState_spec (hnone.addCount hchained) (by simp)
  have hclaim := claimResource_spec (m := m) hqos h.stored fun _ ↦ hqos.pos
  refine ⟨inst', [] ++ (inst.fresh, m) :: [], ?_,
    of_stored [] h hstored ?_ (by simp) (by simp) ?_, rfl⟩
  · rw [hclaim]
    simp only [linkFirst, Option.bind_eq_bind]
    rw [hstate]
    rfl
  · rw [hempty, addCount_empty]
  · cases hw : m.state.write with
    | false =>
      rw [writeKeys_cons_not_write hw, dataKeys_append, dataKeys_cons_not_write hw]
      exact h.greatest
    | true =>
      rw [writeKeys_cons_write hw, dataKeys_append, dataKeys_cons_write hw]
      have hnone : GreatestOf d (writeKeys seen) ([] ++ (dataKeys [] ++ dataKeys [])) := h.greatest
      exact hnone.insert_between (by simp [dataKeys]) (by simp [dataKeys]) hqos.pos (.inl rfl)

/-- A message that is not there yet and that is not too old is stored. -/
lemma insert_between (h : Held d others seen inst (older ++ newer)) (hempty : inst.empty = false)
    (holder : ∀ x ∈ older, x.2.sourceKey < m.sourceKey)
    (hnewer : ∀ x ∈ newer, m.sourceKey < x.2.sourceKey) (hroom : writes newer < d) :
    ∃ inst' l', (do
      let (ptr, inst) ← if m.state.write ∧ qos.history = .keepLast then
          pushOut qos.depth inst.fresh (last none older) inst
        else some (last none older, inst)
      storeSample qos m ptr inst) = some (.success, inst') ∧
      Held d others (m :: seen) inst' l' ∧ l'.map Prod.snd = (if m.state.write then
        pushOutOldest d (writes newer) (older.map Prod.snd) else older.map Prod.snd) ++
          m :: newer.map Prod.snd := by
  cases hw : m.state.write with
  | false =>
    obtain ⟨inst', p, hstore, hstored, hempty'⟩ :=
      storeSample_spec (m := m) hqos h.stored (fun hw' ↦ by simp [hw] at hw')
    refine ⟨inst', _, by simpa using hstore,
      of_stored [] h hstored (hempty'.trans hempty) holder hnewer ?_, by simp⟩
    rw [writeKeys_cons_not_write hw, dataKeys_append, dataKeys_cons_not_write hw, ← dataKeys_append]
    exact h.greatest
  | true =>
    have hlength : older.length ≤ inst.fresh := by
      have hle := h.stored.length_le
      rw [length_append] at hle
      omega
    obtain ⟨pushed, kept, inst1, rfl, hout, hstored1, hroom1, hpushed, -, hempty1, hmap⟩ :=
      pushOut_spec d h.stored (by exact_mod_cast hroom) hlength
    have hroom1' : writes (kept ++ newer) < d := by exact_mod_cast hroom1
    obtain ⟨inst', p, hstore, hstored, hempty'⟩ :=
      storeSample_spec (m := m) hqos hstored1 (fun _ ↦ hroom1')
    rw [append_assoc] at h
    refine ⟨inst', _, ?_,
      of_stored pushed h hstored (hempty'.trans (hempty1.trans hempty)) holder hnewer ?_,
      by rw [if_pos rfl, ← hmap, map_append, map_cons]⟩
    · simp only [hqos.history, hqos.depth, hout, and_self, if_true, Option.bind_eq_bind,
        Option.bind_some, hstore]
    · have hgreatest := h.greatest
      rw [dataKeys_append, dataKeys_append] at hgreatest
      rw [writeKeys_cons_write hw, dataKeys_append, dataKeys_cons_write hw]
      refine hgreatest.insert_between ?_ ?_ ?_ ?_
      · intro k hk
        rw [← dataKeys_append] at hk
        obtain ⟨x, hx, -, rfl⟩ := mem_dataKeys.mp hk
        exact holder x hx
      · intro k hk
        obtain ⟨x, hx, -, rfl⟩ := mem_dataKeys.mp hk
        exact hnewer x hx
      · rwa [← dataKeys_append, length_dataKeys]
      · rw [← dataKeys_append, length_dataKeys]
        rcases hpushed with rfl | hfull
        · exact .inl rfl
        · exact .inr (by exact_mod_cast hfull)

lemma insertSample (h : Held d others seen inst l) (hm : IsSample m)
    (hseen : ∀ x ∈ seen, IsSample x)
    (hsame : ∀ x ∈ seen, x.sourceKey = m.sourceKey → x.state.write = m.state.write) :
    ∃ result inst' l', insertSample qos m inst = some (result, inst') ∧
      Held d others (m :: seen) inst' l' ∧
        l'.map Prod.snd = insertInto qos m (l.map Prod.snd) := by
  have hkind : ¬(m.state.register || (m.state.unregister && !m.state.disposed)) := by
    obtain ⟨-, hregister, hunregister⟩ := hm
    cases hu : m.state.unregister <;> simp_all
  have hstored : m.isStored := by rwa [Message.isStored, Bool.not_eq_true', ← Bool.not_eq_true]
  have hcompare : ∀ x ∈ l, messageCompare m x.2 = compare m.sourceKey x.2.sourceKey := fun x hx ↦
    messageCompare_eq_compare hm.1 (hseen x.2 (h.mem x hx)).1
  rw [GroupInstance.insertSample, if_neg hkind]
  cases hempty : inst.empty with
  | true =>
    obtain rfl := h.empty_iff.mp hempty
    obtain ⟨inst', l', hinsert, hheld, hmap⟩ := h.insert_first hqos
    exact ⟨.success, inst', l', hinsert, hheld,
      hmap.trans (by simp [insertInto, hstored, hqos.bySourceTime, pushOutOldest])⟩
  | false =>
    have hl : l ≠ [] := fun heq ↦ by simp [h.empty_iff.mpr heq] at hempty
    rcases h.findPlace hqos hl hm hseen with
      ⟨x, hx, hkey, hfind⟩ | ⟨older, newer, rfl, holder, hnewer, hfind⟩
    · -- The message is there already.
      refine ⟨.duplicate, inst, l, by simp [hfind], h.of_unchanged fun hw ↦ ?_, ?_⟩
      swap
      · exact (h.insertInto_eq_self hqos.bySourceTime hstored hcompare hx hkey).symm
      have hwrite := hsame x.2 (h.mem x hx) hkey
      exact h.greatest.insert_mem (mem_dataKeys.mpr ⟨x, hx, hwrite.trans hw, hkey⟩)
    · have hgt : ∀ x ∈ older.map Prod.snd, messageCompare m x = .gt :=
        forall_mem_map.mpr fun x hx ↦
          (hcompare x (mem_append_left _ hx)).trans (compare_gt_iff_gt.mpr (holder x hx))
      have hlast : (older.map Prod.snd).getLast?.any (messageCompare m · = .eq) = false := by
        cases hx : (older.map Prod.snd).getLast? with
        | none => rfl
        | some x => simp [hgt x (mem_of_getLast? hx)]
      have hge : ∀ x ∈ older.map Prod.snd, messageCompare m x ≠ .lt := fun x hx ↦ by simp [hgt x hx]
      have hinto := insertInto_append hqos.bySourceTime hstored hge
        (forall_mem_map.mpr fun x hx ↦
          (hcompare x (mem_append_right older hx)).trans (compare_lt_iff_lt.mpr (hnewer x hx)))
      have hcount : (newer.map Prod.snd).countP (·.state.write) = writes newer := countP_map
      rw [← map_append, hlast, hqos.history, hqos.depth, hcount] at hinto
      by_cases hdeep : d ≤ writes newer
      · -- There are enough newer writes.
        rw [if_pos hdeep] at hfind
        refine ⟨.successNotStored, inst, _, by simp [hfind], h.of_unchanged fun _ ↦ ?_, ?_⟩
        swap
        · rw [hinto, if_pos (by simp_all)]
        have hle := h.greatest.length_le
        rw [length_dataKeys, writes_append] at hle
        have hnone : dataKeys older = [] := by
          rw [← length_eq_zero_iff, length_dataKeys]
          omega
        refine h.greatest.insert_below ?_ fun k hk ↦ ?_
        · rw [length_dataKeys, writes_append]
          omega
        · rw [dataKeys_append, hnone, nil_append] at hk
          obtain ⟨x, hx, -, rfl⟩ := mem_dataKeys.mp hk
          exact hnewer x hx
      · rw [if_neg hdeep] at hfind
        obtain ⟨inst', l', hinsert, hheld, hmap⟩ :=
          h.insert_between hqos hempty holder hnewer (not_le.mp hdeep)
        refine ⟨.success, inst', l', ?_, hheld, ?_⟩
        · rw [hfind]
          exact hinsert
        · rw [hinto, if_neg (by simpa using fun _ ↦ hdeep), hmap]
          simp

lemma insertAll (messages : List Message) (h : Held d others seen inst l)
    (hsamples : ∀ x ∈ messages ++ seen, IsSample x)
    (hsame : ∀ x ∈ messages ++ seen, ∀ y ∈ messages ++ seen, x.sourceKey = y.sourceKey →
      x.state.write = y.state.write) :
    ∃ inst' l', insertAll qos messages inst = some inst' ∧
      Held d others (messages.reverse ++ seen) inst' l' ∧
        l'.map Prod.snd = messages.foldl (fun samples m ↦ insertInto qos m samples)
          (l.map Prod.snd) := by
  induction messages generalizing inst seen l with
  | nil => exact ⟨inst, l, rfl, h, rfl⟩
  | cons m messages ih =>
    obtain ⟨result, inst1, l1, hinsert, hheld, hmap⟩ := h.insertSample hqos (hsamples m (by simp))
      (fun x hx ↦ hsamples x (by simp [hx]))
      fun x hx hkey ↦ hsame x (by simp [hx]) m (by simp) hkey
    have hmem : ∀ x, x ∈ messages ++ m :: seen → x ∈ m :: messages ++ seen := by
      intro x hx
      simp only [cons_append, mem_cons, mem_append] at hx ⊢
      tauto
    obtain ⟨inst', l', hall, hheld', hmap'⟩ := ih hheld (fun x hx ↦ hsamples x (hmem x hx))
      fun x hx y hy ↦ hsame x (hmem x hx) y (hmem y hy)
    refine ⟨inst', l', ?_, by simpa using hheld', by rw [hmap', hmap, foldl_cons]⟩
    rw [insertAll, hinsert]
    exact hall

end

end Held

lemma held_new (d : ℕ) (others : ℤ) : Held d others [] (new others) [] := by
  refine ⟨⟨⟨by simp, trivial, rfl, rfl⟩, by simp, rfl, rfl, rfl, ?_⟩, by simp [new], by simp,
    by simp, ?_⟩
  · simp [new, writes]
  · have hnone : writeKeys [] = ∅ := by simp [writeKeys]
    rw [hnone]
    exact GreatestOf.empty

/-- The `d` greatest writes among the messages, or all of them if there are fewer. -/
def GreatestWrites (d : ℕ) (messages data : List Message) : Prop :=
  (∀ x ∈ data, x ∈ messages ∧ x.state.write = true) ∧ data.length ≤ d ∧
    ∀ m ∈ messages, m.state.write = true → (∃ x ∈ data, messageCompare m x = .eq) ∨
      data.length = d ∧ ∀ x ∈ data, messageCompare m x = .lt

/-- In whatever order messages are inserted into an instance, and however often, it then holds the
greatest writes among them. Its samples are linked in both directions in the order of their
sources, and the counts are those of its samples. They are those that `insertInto` gives. -/
theorem groupInstance_history {qos : GroupQos} {d : ℕ} {others : ℤ} (hqos : KeepsLast qos d others)
    (messages : List Message) (hsamples : ∀ m ∈ messages, IsSample m)
    (hsame : ∀ m ∈ messages, ∀ m' ∈ messages, messageCompare m m' = .eq →
      m.state.write = m'.state.write) :
    ∃ inst l, insertAll qos messages (new others) = some inst ∧
      inst.walkNewer = some l ∧ inst.walkOlder = some l.reverse ∧
        l.Pairwise (fun x y ↦ messageCompare x.2 y.2 = .lt) ∧
          GreatestWrites d messages ((l.map Prod.snd).filter fun m ↦ m.state.write) ∧
            (inst.count = writes l + disposes l ∧ inst.historySampleCount = writes l) ∧
              l.map Prod.snd = messages.foldl (fun samples m ↦ insertInto qos m samples) [] := by
  have hcompare : ∀ m ∈ messages, ∀ m' ∈ messages,
      messageCompare m m' = compare m.sourceKey m'.sourceKey := fun m hm m' hm' ↦
    messageCompare_eq_compare (hsamples m hm).1 (hsamples m' hm').1
  obtain ⟨inst, l, hinsert, hheld, hmap⟩ := Held.insertAll hqos messages (held_new d others)
    (by simpa using hsamples) (by
      simp only [append_nil]
      intro x hx y hy hkey
      exact hsame x hx y hy (by rw [hcompare x hx y hy, compare_eq_iff_eq.mpr hkey]))
  have hmem : ∀ x ∈ l, x.2 ∈ messages := fun x hx ↦ by simpa using hheld.mem x hx
  have hdata : ∀ m ∈ (l.map Prod.snd).filter (fun m ↦ m.state.write), m ∈ messages := by
    intro m hm
    obtain ⟨x, hx, rfl⟩ := mem_map.mp (mem_filter.mp hm).1
    exact hmem x hx
  have hgreatest := hheld.greatest
  rw [dataKeys_eq_map] at hgreatest
  refine ⟨inst, l, hinsert, hheld.stored.walkNewer, hheld.stored.walkOlder, ?_, ⟨?_, ?_, ?_⟩,
    ⟨hheld.stored.count_eq, hheld.stored.history_eq⟩, hmap⟩
  · refine (pairwise_map.mp hheld.pairwise).imp_of_mem fun {x y} hx hy hlt ↦ ?_
    rw [hcompare _ (hmem x hx) _ (hmem y hy), compare_lt_iff_lt.mpr hlt]
  · exact fun m hm ↦ ⟨hdata m hm, (mem_filter.mp hm).2⟩
  · simpa using hgreatest.length_le
  · intro m hm hw
    rcases hgreatest.covers m.sourceKey ⟨m, by simpa using hm, hw, rfl⟩ with hkey | ⟨hfull, hlt⟩
    · obtain ⟨x, hx, hkey⟩ := mem_map.mp hkey
      exact .inl ⟨x, hx, by rw [hcompare m hm x (hdata x hx), hkey, compare_eq_iff_eq.mpr rfl]⟩
    · refine .inr ⟨by simpa using hfull, fun x hx ↦ ?_⟩
      rw [hcompare m hm x (hdata x hx)]
      exact compare_lt_iff_lt.mpr (hlt x.sourceKey (mem_map_of_mem hx))

def sourceMessage (write disposed : Bool) (time : ℤ) (seq : ℕ) : Message where
  addr := seq
  state := ⟨write, disposed, false, false, false, false⟩
  allocTime := time
  writeTime := time
  writerGID := ⟨1, 1, 1⟩
  sequenceNumber := seq
  qos := none

def lastTwo : GroupQos := ⟨true, .keepLast, 2, some 5, some 2, true⟩

def arrivals : List Message :=
  [sourceMessage true false 4 4, sourceMessage false true 2 2, sourceMessage true false 1 1,
    sourceMessage true true 3 3, sourceMessage true false 4 4]

theorem groupInstance_history_of_arrivals :
    ∃ inst l, insertAll lastTwo arrivals (new 3) = some inst ∧
      inst.walkNewer = some l ∧ inst.walkOlder = some l.reverse ∧
        l.Pairwise (fun x y ↦ messageCompare x.2 y.2 = .lt) ∧
          GreatestWrites 2 arrivals ((l.map Prod.snd).filter fun m ↦ m.state.write) ∧
            (inst.count = writes l + disposes l ∧ inst.historySampleCount = writes l) ∧
              l.map Prod.snd = arrivals.foldl (fun samples m ↦ insertInto lastTwo m samples) [] :=
  have hqos : KeepsLast lastTwo 2 3 :=
    ⟨rfl, rfl, rfl, by decide, by simp [lastTwo], by simp [lastTwo], rfl⟩
  groupInstance_history hqos arrivals (by decide) (by decide)

end GroupInstance

end OpenSplice.Kernel
