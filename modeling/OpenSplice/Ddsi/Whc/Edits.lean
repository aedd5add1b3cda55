import OpenSplice.Ddsi.Whc.Index

/-!
# The edits a cache makes to its samples

`WhcStore` is a cache without the order of its samples. What `whc_remove_acked_messages` does to the
store, and most of what `whc_insert` does, is a sequence of four edits (`StoreEdit`), with the drop
point `md` as their limit: a sample that is not above `md` nor in the transient-local history goes,
such a sample is no longer counted as unacknowledged, an instance is marked as pruned, and a sample
is let go by an instance that is no longer in the index. They keep the index in order
(`StoreEdit.ok`), and what is above the drop point or in the transient-local history stays
(`StoreEdit.above`, `StoreEdits.inTl`).
-/

set_option autoImplicit false

namespace OpenSplice.Ddsi

open Library KeyedList WhcSample WhcAdmin

/-- A cache, without the order of its samples. -/
structure WhcStore where
  admin : WhcAdmin
  samples : List WhcSample

def Whc.store (whc : Whc) : WhcStore := ⟨whc.toWhcAdmin, whc.samples⟩

def InTl (admin : WhcAdmin) (w : WhcSample) : Prop :=
  ∃ n ∈ admin.idxHash, w.idxnode = some n.name ∧
    Ring.age admin.idxdepth n.headidx w.idxnodePos < admin.tldepth

/-- A store in order. -/
structure StoreOk (st : WhcStore) : Prop where
  ordered : KeyedList.Ordered WhcSample.seq st.samples
  idx : IdxOk st.admin st.samples

/-- An edit of the store, with `md` as its drop point. -/
inductive StoreEdit (md : ℤ) : WhcStore → WhcStore → Prop
  | drop {st : WhcStore} {w : WhcSample} {admin : WhcAdmin} (hw : w ∈ st.samples)
      (hdel : deleteOneSampleFromIdx st.admin w = some admin) (hle : w.seq ≤ md)
      (htl : ¬ InTl st.admin w) :
      StoreEdit md st ⟨admin.uncount w, KeyedList.delete WhcSample.seq w.seq st.samples⟩
  | ack {st : WhcStore} {w : WhcSample} (hw : w ∈ st.samples) (hle : w.seq ≤ md) :
      StoreEdit md st
        ⟨st.admin.uncount w, KeyedList.modify WhcSample.seq w.seq WhcSample.acked st.samples⟩
  | prune {st : WhcStore} {n : WhcIdxnode} (hn : n ∈ st.admin.idxHash) :
      StoreEdit md st ⟨st.admin.setIdxnode { n with pruneSeq := md }, st.samples⟩
  | release {st : WhcStore} {w : WhcSample} (hw : w ∈ st.samples)
      (hidx : ∀ n ∈ st.admin.idxHash, w.idxnode ≠ some n.name) :
      StoreEdit md st
        ⟨st.admin, KeyedList.modify WhcSample.seq w.seq WhcSample.released st.samples⟩

abbrev StoreEdits (md : ℤ) : WhcStore → WhcStore → Prop := Relation.ReflTransGen (StoreEdit md)

section Uncount

variable {admin : WhcAdmin} {w : WhcSample}

@[simp] lemma uncount_settings : (admin.uncount w).toWhcSettings = admin.toWhcSettings := by
  unfold uncount
  split_ifs <;> rfl

@[simp] lemma uncount_idxHash : (admin.uncount w).idxHash = admin.idxHash := by
  unfold uncount
  split_ifs <;> rfl

@[simp] lemma uncount_nextIdxnode : (admin.uncount w).nextIdxnode = admin.nextIdxnode := by
  unfold uncount
  split_ifs <;> rfl

lemma IdxOk.uncount {samples : List WhcSample} (h : IdxOk admin samples) :
    IdxOk (admin.uncount w) samples :=
  h.of_eq uncount_idxHash (congrArg WhcSettings.idxdepth uncount_settings) uncount_nextIdxnode

lemma deleteOneSampleFromIdx_settings {admin' : WhcAdmin}
    (hdel : deleteOneSampleFromIdx admin w = some admin') :
    admin'.toWhcSettings = admin.toWhcSettings := by
  rcases deleteOneSampleFromIdx_cases hdel with ⟨-, rfl⟩ | ⟨n, -, -, ⟨-, rfl⟩ | ⟨-, rfl⟩⟩ <;> rfl

end Uncount

section StoreEdit

variable {md cur : ℤ} {st st' : WhcStore} {w : WhcSample} {n n' : WhcIdxnode} {v : WhcSample}

/-- The flag of a sample is only cleared, and not above the drop point. -/
structure FlagKept (md : ℤ) (v w : WhcSample) : Prop where
  set : w.unacked = true → v.unacked = true
  above : md < w.seq → v.unacked = w.unacked

lemma FlagKept.of_eq (h : v.unacked = w.unacked) : FlagKept md v w := ⟨h.trans, fun _ ↦ h⟩

lemma FlagKept.cleared (h : FlagKept md v w) (hv : v.unacked = false) : w.unacked = false := by
  cases hw : w.unacked with
  | false => rfl
  | true => rw [h.set hw] at hv; exact hv

section

variable (h : StoreEdit md st st')
include h

lemma StoreEdit.settings : st'.admin.toWhcSettings = st.admin.toWhcSettings := by
  cases h with
  | drop _ hdel => exact uncount_settings.trans (deleteOneSampleFromIdx_settings hdel)
  | ack => exact uncount_settings
  | prune => rfl
  | release => rfl

lemma StoreEdit.ok (hok : StoreOk st) : StoreOk st' := by
  cases h with
  | drop hw hdel => exact ⟨hok.ordered.delete _, (hok.idx.drop hok.ordered hw hdel).uncount⟩
  | ack => exact ⟨hok.ordered.modify _ fun _ ↦ rfl, (hok.idx.ack _).uncount⟩
  | prune hn => exact ⟨hok.ordered, hok.idx.setPruneSeq hn md⟩
  | release hw hidx =>
    refine ⟨hok.ordered.modify _ fun _ ↦ rfl, hok.idx.release fun n hn i hi ↦ ?_⟩
    obtain ⟨v, hv, hseq, hname, -⟩ := (hok.idx.entry n hn _ _).mp hi
    rw [hok.ordered.eq_of_key hv hw hseq] at hname
    exact hidx n hn hname

lemma StoreEdit.back (hw : w ∈ st'.samples) :
    ∃ v ∈ st.samples, v.seq = w.seq ∧ v.serdata = w.serdata ∧ v.idxnodePos = w.idxnodePos ∧
      FlagKept md v w ∧ (w.idxnode = none ∨ w.idxnode = v.idxnode) := by
  cases h with
  | drop => exact ⟨w, (mem_delete.mp hw).1, rfl, rfl, rfl, .of_eq rfl, .inr rfl⟩
  | ack _ hle =>
    rcases mem_modify.mp hw with ⟨v, hv, heq, rfl⟩ | ⟨hw, -⟩
    · exact ⟨v, hv, rfl, rfl, rfl, ⟨fun hu ↦ absurd hu (by simp [acked]),
        fun hlt ↦ absurd (heq ▸ hle) (not_le.mpr hlt)⟩, .inr rfl⟩
    · exact ⟨w, hw, rfl, rfl, rfl, .of_eq rfl, .inr rfl⟩
  | prune => exact ⟨w, hw, rfl, rfl, rfl, .of_eq rfl, .inr rfl⟩
  | release =>
    rcases mem_modify.mp hw with ⟨v, hv, -, rfl⟩ | ⟨hw, -⟩
    · exact ⟨v, hv, rfl, rfl, rfl, .of_eq rfl, .inl rfl⟩
    · exact ⟨w, hw, rfl, rfl, rfl, .of_eq rfl, .inr rfl⟩

end

section

variable (h : StoreEdits md st st')
include h

lemma StoreEdits.settings : st'.admin.toWhcSettings = st.admin.toWhcSettings := by
  induction h with
  | refl => rfl
  | tail _ hstep ih => exact hstep.settings.trans ih

lemma StoreEdits.ok (hok : StoreOk st) : StoreOk st' := by
  induction h with
  | refl => exact hok
  | tail _ hstep ih => exact hstep.ok ih

lemma StoreEdits.back (hw : w ∈ st'.samples) :
    ∃ v ∈ st.samples, v.seq = w.seq ∧ v.serdata = w.serdata ∧ v.idxnodePos = w.idxnodePos ∧
      FlagKept md v w ∧ (w.idxnode = none ∨ w.idxnode = v.idxnode) := by
  induction h generalizing w with
  | refl => exact ⟨w, hw, rfl, rfl, rfl, .of_eq rfl, .inr rfl⟩
  | tail _ hstep ih =>
    obtain ⟨v, hv, hseq, hser, hpos, hun, hidx⟩ := hstep.back hw
    obtain ⟨u, hu, hseq', hser', hpos', hun', hidx'⟩ := ih hv
    refine ⟨u, hu, hseq'.trans hseq, hser'.trans hser, hpos'.trans hpos, ⟨hun'.set ∘ hun.set,
      fun hlt ↦ (hun'.above (hseq ▸ hlt)).trans (hun.above hlt)⟩, ?_⟩
    rcases hidx with hnone | heq
    · exact .inl hnone
    · exact hidx'.imp heq.trans heq.trans

end

lemma exists_mem_setIdxnode {admin : WhcAdmin} {samples : List WhcSample}
    (hok : IdxOk admin samples) {m : WhcIdxnode} (hm : m ∈ admin.idxHash) (hn : n ∈ admin.idxHash)
    (m' : WhcIdxnode) (hname : m'.name = m.name) {P : WhcIdxnode → Prop} (hset : n = m → P m')
    (hold : P n) : ∃ n' ∈ (admin.setIdxnode m').idxHash, n'.name = n.name ∧ P n' := by
  by_cases hnm : n.name = m.name
  · obtain rfl := hok.eq_of_name hn hm hnm
    exact ⟨m', mem_setIdxnode.mpr (.inl ⟨rfl, n, hn, hname.symm⟩), hname, hset rfl⟩
  · exact ⟨n, mem_setIdxnode.mpr (.inr ⟨hn, fun heq ↦ hnm (heq.trans hname)⟩), rfl, hold⟩

/-- As long as there is a transient-local history, an edit frees no instance, and the rings keep
their heads. -/
lemma StoreEdit.heads (h : StoreEdit md st st') (hok : StoreOk st) (htl : 0 < st.admin.tldepth)
    (hn : n ∈ st.admin.idxHash) :
    ∃ n' ∈ st'.admin.idxHash, n'.name = n.name ∧ n'.key = n.key ∧ n'.headidx = n.headidx := by
  cases h with
  | drop _ hdel _ hout =>
    simp only [uncount_idxHash]
    rcases deleteOneSampleFromIdx_cases hdel with ⟨-, rfl⟩ | ⟨m, hm, hname, ⟨-, rfl⟩ | ⟨hpos, -⟩⟩
    · exact ⟨n, hn, rfl, rfl, rfl⟩
    · exact exists_mem_setIdxnode (P := fun n' ↦ n'.key = n.key ∧ n'.headidx = n.headidx)
        hok.idx hm hn (m.clear _) rfl (by rintro rfl; exact ⟨rfl, rfl⟩) ⟨rfl, rfl⟩
    · refine absurd ⟨m, hm, hname, ?_⟩ hout
      rw [hpos, Ring.age_head]
      exact htl
  | ack =>
    simp only [uncount_idxHash]
    exact ⟨n, hn, rfl, rfl, rfl⟩
  | @prune m hm =>
    exact exists_mem_setIdxnode (P := fun n' ↦ n'.key = n.key ∧ n'.headidx = n.headidx)
      hok.idx hm hn { m with pruneSeq := md } rfl (by rintro rfl; exact ⟨rfl, rfl⟩) ⟨rfl, rfl⟩
  | release => exact ⟨n, hn, rfl, rfl, rfl⟩

/-- The ring `n'` is `n` with some places cleared. -/
structure NodeSub (n' n : WhcIdxnode) : Prop where
  name : n'.name = n.name
  key : n'.key = n.key
  headidx : n'.headidx = n.headidx
  holds : ∀ i s, n'.Holds i s → n.Holds i s

lemma NodeSub.refl (n : WhcIdxnode) : NodeSub n n := ⟨rfl, rfl, rfl, fun _ _ hs ↦ hs⟩

lemma NodeSub.trans {a b c : WhcIdxnode} (hab : NodeSub a b) (hbc : NodeSub b c) : NodeSub a c :=
  ⟨hab.name.trans hbc.name, hab.key.trans hbc.key, hab.headidx.trans hbc.headidx,
    fun i s hs ↦ hbc.holds i s (hab.holds i s hs)⟩

open NodeSub

lemma deleteOneSampleFromIdx_nodes {admin admin' : WhcAdmin}
    (hdel : deleteOneSampleFromIdx admin w = some admin') (hn' : n' ∈ admin'.idxHash) :
    ∃ n ∈ admin.idxHash, NodeSub n' n ∧ n'.pruneSeq = n.pruneSeq := by
  rcases deleteOneSampleFromIdx_cases hdel with ⟨-, rfl⟩ | ⟨m, hm, -, ⟨-, rfl⟩ | ⟨-, rfl⟩⟩
  · exact ⟨n', hn', refl n', rfl⟩
  · rcases mem_setIdxnode.mp hn' with ⟨rfl, -⟩ | ⟨hn', -⟩
    · exact ⟨m, hm, ⟨rfl, rfl, rfl, fun i s hs ↦ (WhcIdxnode.clear_holds.mp hs).2⟩, rfl⟩
    · exact ⟨n', hn', refl n', rfl⟩
  · exact ⟨n', (mem_freeIdxnode.mp hn').1, refl n', rfl⟩

/-- An edit only clears places of a ring, and it marks a ring as pruned with its own drop point. -/
lemma StoreEdit.nodes (h : StoreEdit md st st') (hn' : n' ∈ st'.admin.idxHash) :
    ∃ n ∈ st.admin.idxHash, NodeSub n' n ∧ (n'.pruneSeq = n.pruneSeq ∨ n'.pruneSeq = md) := by
  cases h with
  | drop _ hdel =>
    rw [uncount_idxHash] at hn'
    obtain ⟨n, hn, hsub, hprune⟩ := deleteOneSampleFromIdx_nodes hdel hn'
    exact ⟨n, hn, hsub, .inl hprune⟩
  | ack =>
    rw [uncount_idxHash] at hn'
    exact ⟨n', hn', refl n', .inl rfl⟩
  | prune hm =>
    rcases mem_setIdxnode.mp hn' with ⟨rfl, -⟩ | ⟨hn', -⟩
    · exact ⟨_, hm, ⟨rfl, rfl, rfl, fun _ _ hs ↦ hs⟩, .inr rfl⟩
    · exact ⟨n', hn', refl n', .inl rfl⟩
  | release => exact ⟨n', hn', refl n', .inl rfl⟩

lemma StoreEdit.seqs_sublist (h : StoreEdit md st st') :
    (st'.samples.map seq).Sublist (st.samples.map seq) := by
  cases h with
  | drop => exact List.filter_sublist.map _
  | ack => rw [map_modify (f := seq) (g := acked) fun _ ↦ rfl]
  | prune => exact List.Sublist.refl _
  | release => rw [map_modify (f := seq) (g := released) fun _ ↦ rfl]

section

variable (h : StoreEdits md st st')
include h

lemma StoreEdits.nodes (hn' : n' ∈ st'.admin.idxHash) :
    ∃ n ∈ st.admin.idxHash, NodeSub n' n ∧ (n'.pruneSeq = n.pruneSeq ∨ n'.pruneSeq = md) := by
  induction h generalizing n' with
  | refl => exact ⟨n', hn', refl n', .inl rfl⟩
  | tail _ hstep ih =>
    obtain ⟨m, hm, hsub, hprune⟩ := hstep.nodes hn'
    obtain ⟨n, hn, hsub', hprune'⟩ := ih hm
    refine ⟨n, hn, hsub.trans hsub', hprune.elim (fun heq ↦ ?_) .inr⟩
    exact hprune'.imp heq.trans heq.trans

lemma StoreEdits.pruneSeq_le
    (hle : ∀ n ∈ st.admin.idxHash, n.pruneSeq ≤ md) : ∀ n ∈ st'.admin.idxHash, n.pruneSeq ≤ md := by
  intro n' hn'
  obtain ⟨n, hn, -, heq | heq⟩ := nodes h hn'
  · exact heq ▸ hle n hn
  · exact heq.le

lemma StoreEdits.seqs_sublist : (st'.samples.map seq).Sublist (st.samples.map seq) := by
  induction h with
  | refl => exact List.Sublist.refl _
  | tail _ hstep ih => exact hstep.seqs_sublist.trans ih

end

lemma StoreEdit.noStale (h : StoreEdit md st st') (hok : StoreOk st)
    (htl : 0 < st.admin.tldepth) (hstale : NoStale cur st.admin st.samples) :
    NoStale cur st'.admin st'.samples := by
  intro w hw hlt name hname
  obtain ⟨v, hv, hseq, -, -, -, hidx⟩ := h.back hw
  rw [hname] at hidx
  obtain ⟨n, hn, hnname⟩ := hstale v hv (hseq ▸ hlt) name (hidx.resolve_left (by simp)).symm
  obtain ⟨n', hn', hname', -⟩ := h.heads hok htl hn
  exact ⟨n', hn', hname'.trans hnname⟩

open StoreEdits

section

variable (h : StoreEdit md st st') (hok : StoreOk st)
include h hok

/-- A sample above the drop point, or in the transient-local history, is not dropped. -/
lemma StoreEdit.stays (hv : v ∈ st.samples) (hkeep : md < v.seq ∨ InTl st.admin v) :
    ∃ w ∈ st'.samples, w.seq = v.seq ∧ (InTl st.admin v → InTl st'.admin w) := by
  -- the sample is there, and it is the edit that has to be looked at
  have hinTl : ∀ w ∈ st'.samples, w.idxnode = v.idxnode → w.idxnodePos = v.idxnodePos →
      InTl st.admin v → InTl st'.admin w := by
    rintro w - hidx hpos ⟨n, hn, hname, hage⟩
    obtain ⟨n', hn', hname', -, hhead'⟩ := h.heads hok (Nat.zero_lt_of_lt hage) hn
    refine ⟨n', hn', by rw [hidx, hname, hname'], ?_⟩
    rw [h.settings, hhead', hpos]
    exact hage
  cases h with
  | @drop w _ hw _ _ hout =>
    have hne : v.seq ≠ w.seq := by
      intro heq
      obtain rfl := hok.ordered.eq_of_key hv hw heq
      rcases hkeep with hlt | hin
      · omega
      · exact hout hin
    have hmem := mem_delete.mpr ⟨hv, hne⟩
    exact ⟨v, hmem, rfl, hinTl v hmem rfl rfl⟩
  | @ack w =>
    by_cases heq : v.seq = w.seq
    · have hmem := mem_modify_of_eq acked hv heq
      exact ⟨v.acked, hmem, rfl, hinTl _ hmem rfl rfl⟩
    · have hmem := mem_modify_of_ne acked hv heq
      exact ⟨v, hmem, rfl, hinTl v hmem rfl rfl⟩
  | prune => exact ⟨v, hv, rfl, hinTl v hv rfl rfl⟩
  | @release w hw hidx =>
    by_cases heq : v.seq = w.seq
    · obtain rfl := hok.ordered.eq_of_key hv hw heq
      refine ⟨v.released, mem_modify_of_eq released hv rfl, rfl, ?_⟩
      rintro ⟨n, hn, hname, -⟩
      exact absurd hname (hidx n hn)
    · have hmem := mem_modify_of_ne released hv heq
      exact ⟨v, hmem, rfl, hinTl v hmem rfl rfl⟩

/-- The instance of a sample above the drop point is not freed, if that sample is at its head. -/
lemma StoreEdit.node_above
    (hn : n ∈ st.admin.idxHash) {t : ℤ} (ht : n.Holds n.headidx t) (hlt : md < t) :
    ∃ n' ∈ st'.admin.idxHash, n'.name = n.name ∧ n'.Holds n'.headidx t := by
  cases h with
  | @drop w _ hw hdel hle =>
    simp only [uncount_idxHash]
    rcases deleteOneSampleFromIdx_cases hdel with
      ⟨-, rfl⟩ | ⟨m, hm, hname, ⟨hpos, rfl⟩ | ⟨hpos, rfl⟩⟩
    · exact ⟨n, hn, rfl, ht⟩
    · refine exists_mem_setIdxnode (P := fun n' ↦ n'.Holds n'.headidx t) hok.idx hm hn (m.clear _)
        rfl ?_ ht
      rintro rfl
      exact WhcIdxnode.clear_holds.mpr ⟨hpos.symm, ht⟩
    · refine ⟨n, mem_freeIdxnode.mpr ⟨hn, fun hnm ↦ ?_⟩, rfl, ht⟩
      obtain rfl := hok.idx.eq_of_name hn hm hnm
      have hheld := hok.idx.holds hn hw hname
      rw [hpos] at hheld
      exact absurd hle (not_le.mpr (hlt.trans_eq (ht.unique hheld)))
  | ack =>
    simp only [uncount_idxHash]
    exact ⟨n, hn, rfl, ht⟩
  | @prune m hm =>
    exact exists_mem_setIdxnode (P := fun n' ↦ n'.Holds n'.headidx t) hok.idx hm hn
      { m with pruneSeq := md } rfl (by rintro rfl; exact ht) ht
  | release => exact ⟨n, hn, rfl, ht⟩

/-- A sample is let go only by an instance that is not in the index. -/
lemma StoreEdit.back_node (hw : w ∈ st'.samples) :
    ∃ v ∈ st.samples, v.seq = w.seq ∧
      ∀ n ∈ st.admin.idxHash, v.idxnode = some n.name → w.idxnode = some n.name := by
  cases h with
  | drop => exact ⟨w, (mem_delete.mp hw).1, rfl, fun _ _ hname ↦ hname⟩
  | ack =>
    rcases mem_modify.mp hw with ⟨v, hv, -, rfl⟩ | ⟨hw, -⟩
    · exact ⟨v, hv, rfl, fun _ _ hname ↦ hname⟩
    · exact ⟨w, hw, rfl, fun _ _ hname ↦ hname⟩
  | prune => exact ⟨w, hw, rfl, fun _ _ hname ↦ hname⟩
  | release hu hidx =>
    rcases mem_modify.mp hw with ⟨v, hv, heq, rfl⟩ | ⟨hw, -⟩
    · obtain rfl := hok.ordered.eq_of_key hv hu heq
      exact ⟨v, hv, rfl, fun n hn hname ↦ absurd hname (hidx n hn)⟩
    · exact ⟨w, hw, rfl, fun _ _ hname ↦ hname⟩

end

variable (h : StoreEdits md st st') (hok : StoreOk st)
include h hok

namespace StoreEdits

lemma noStale (htl : 0 < st.admin.tldepth) (hstale : NoStale cur st.admin st.samples) :
    NoStale cur st'.admin st'.samples := by
  induction h with
  | refl => exact hstale
  | tail hsteps hstep ih =>
    refine hstep.noStale (ok hsteps hok) ?_ ih
    rw [settings hsteps]
    exact htl

lemma inTl (hv : v ∈ st.samples)
    (hin : InTl st.admin v) : ∃ w ∈ st'.samples, w.seq = v.seq ∧ InTl st'.admin w := by
  induction h with
  | refl => exact ⟨v, hv, rfl, hin⟩
  | tail hsteps hstep ih =>
    obtain ⟨w, hw, hseq, hwin⟩ := ih
    obtain ⟨u, hu, huseq, huin⟩ := hstep.stays (ok hsteps hok) hw (.inr hwin)
    exact ⟨u, hu, huseq.trans hseq, huin hwin⟩

lemma above (hv : v ∈ st.samples) (hlt : md < v.seq) : ∃ w ∈ st'.samples, w.seq = v.seq := by
  induction h with
  | refl => exact ⟨v, hv, rfl⟩
  | tail hsteps hstep ih =>
    obtain ⟨w, hw, hseq⟩ := ih
    obtain ⟨u, hu, huseq, -⟩ := hstep.stays (ok hsteps hok) hw (.inl (hseq ▸ hlt))
    exact ⟨u, hu, huseq.trans hseq⟩

lemma node_above (hn : n ∈ st.admin.idxHash) {t : ℤ} (ht : n.Holds n.headidx t) (hlt : md < t) :
    ∃ n' ∈ st'.admin.idxHash, n'.name = n.name ∧ n'.Holds n'.headidx t := by
  induction h with
  | refl => exact ⟨n, hn, rfl, ht⟩
  | tail hsteps hstep ih =>
    obtain ⟨m, hm, hname, hholds⟩ := ih
    obtain ⟨n', hn', hname', hholds'⟩ := hstep.node_above (ok hsteps hok) hm hholds hlt
    exact ⟨n', hn', hname'.trans hname, hholds'⟩

lemma heads (htl : 0 < st.admin.tldepth)
    (hn : n ∈ st.admin.idxHash) : ∃ n' ∈ st'.admin.idxHash, n'.name = n.name := by
  induction h with
  | refl => exact ⟨n, hn, rfl⟩
  | tail hsteps hstep ih =>
    obtain ⟨m, hm, hname⟩ := ih
    obtain ⟨n', hn', hname', -⟩ := hstep.heads (ok hsteps hok) (settings hsteps ▸ htl) hm
    exact ⟨n', hn', hname'.trans hname⟩

lemma back_node (hw : w ∈ st'.samples) :
    ∃ v ∈ st.samples, v.seq = w.seq ∧
      ∀ n' ∈ st'.admin.idxHash, v.idxnode = some n'.name → w.idxnode = some n'.name := by
  induction h generalizing w with
  | refl => exact ⟨w, hw, rfl, fun _ _ hname ↦ hname⟩
  | tail hsteps hstep ih =>
    obtain ⟨u, hu, huseq, huname⟩ := hstep.back_node (ok hsteps hok) hw
    obtain ⟨v, hv, hvseq, hvname⟩ := ih hu
    refine ⟨v, hv, hvseq.trans huseq, fun n' hn' hname ↦ ?_⟩
    obtain ⟨m, hm, hsub, -⟩ := hstep.nodes hn'
    rw [hsub.name] at hname ⊢
    exact huname m hm (hvname m hm hname)

end StoreEdits

end StoreEdit

end OpenSplice.Ddsi
