import OpenSplice.Kernel.Reader.Runs
import OpenSplice.Library.SortedList

/-!
# What has been consumed

With the order of the source, the bookmark of an instance says that everything up to it has been
consumed: no message up to it is linked any more, except for those that have been linked before
(`View.Follows`). The edits of an instance keep the history in order (`View.Ordered`), and each of
them moves the bookmark behind the data that it removes (`Edits.follows`).

This needs messages that are not implicit, data that is neither a registration nor an
unregistration, and that no merge resets the bookmark.
-/

set_option autoImplicit false

namespace OpenSplice.Kernel

open List InstanceState View

variable {m : Message} {bookmark : Bookmark}

variable {qos : ReaderQos} {ok : Effect → Prop}

/-- A message whose place is given by its key. Data is neither a registration nor an
unregistration. -/
structure Plain (m : Message) : Prop where
  explicit : m.state.implicit = false
  register : m.state.write = true → m.state.register = false
  unregister : m.state.write = true → m.state.unregister = false

/-! ### The bookmark -/

def Consumed (bookmark : Bookmark) (m : Message) : Prop :=
  m.sourceKey ≤ bookmark.template.sourceKey

lemma le_template (h : m.state.unregister = false) :
    m.sourceKey ≤ m.bookmark.template.sourceKey := by
  rw [← not_lt, ← compare_gt_iff_gt, compare_sourceKey]
  simp only [Bookmark.template, Message.bookmark, compare_eq_iff_eq.mpr, Ordering.then]
  rw [gidCompare_eq_iff.mpr rfl]
  cases hregister : m.state.register <;> simp [stateCompare, h, hregister]

lemma Consumed.consume {msg : Message} (hmsg : msg.state.implicit = false)
    (hb : bookmark.isImplicit = false) (h : Consumed bookmark m) :
    Consumed (InstanceState.consume msg bookmark) m := by
  rw [InstanceState.consume]
  split_ifs with hmoves
  · have hgt := hmoves.2
    rw [compareMessageToBookmark, messageOrder_eq_compare hmsg hb, compare_gt_iff_gt] at hgt
    exact (h.trans hgt.le).trans (le_template (by simpa using hmoves.1))
  · exact h

section

variable (hm : m.state.implicit = false)
include hm

lemma consumed_iff (hb : bookmark.isImplicit = false) :
    Consumed bookmark m ↔ compareMessageToBookmark m bookmark ≠ .gt := by
  rw [Consumed, compareMessageToBookmark, messageOrder_eq_compare hm hb, Ne, compare_gt_iff_gt,
    not_lt]

lemma isImplicit_consume (hb : bookmark.isImplicit = false) :
    (consume m bookmark).isImplicit = false := by
  rw [consume]
  split_ifs
  · exact hm
  · exact hb

lemma consumed_consume (hunregister : m.state.unregister = false)
    (hb : bookmark.isImplicit = false) : Consumed (consume m bookmark) m := by
  rw [consume]
  split_ifs with hmoves
  · exact le_template hunregister
  · rw [consumed_iff hm hb]
    intro hgt
    exact hmoves ⟨by simp [hunregister], hgt⟩

end

namespace View

/-- The history is in order, and the messages are the kind of messages that the bookmark is for. -/
structure Ordered (v : View) : Prop where
  sorted : (v.history.map fun s ↦ s.message.sourceKey).Pairwise (· < ·)
  history : ∀ s ∈ v.history, Plain s.message
  pending : ∀ s ∈ v.pending, Plain s.message
  bookmark : v.lastConsumed.isImplicit = false

/-- How the samples and the bookmark of an instance change in the course of time: what has been
consumed stays consumed, data that is gone has been consumed, and what is new has not been. -/
structure Follows (v v' : View) : Prop where
  consumed : ∀ m, Consumed v.lastConsumed m → Consumed v'.lastConsumed m
  gone : ∀ s ∈ v.history, s.validData = true →
    (∃ s' ∈ v'.history, s'.message = s.message ∧ s'.validData = true) ∨
      Consumed v'.lastConsumed s.message
  new : ∀ s' ∈ v'.history, (∃ s ∈ v.history, s.message = s'.message) ∨
    ¬Consumed v.lastConsumed s'.message

namespace Follows

variable {v v' v'' : View}

lemma refl (v : View) : v.Follows v :=
  ⟨fun _ h ↦ h, fun s hs hvalid ↦ .inl ⟨s, hs, rfl, hvalid⟩, fun s hs ↦ .inl ⟨s, hs, rfl⟩⟩

lemma trans (h : v.Follows v') (h' : v'.Follows v'') : v.Follows v'' where
  consumed m hm := h'.consumed m (h.consumed m hm)
  gone s hs hvalid := by
    rcases h.gone s hs hvalid with ⟨s', hs', hmessage, hvalid'⟩ | hconsumed
    · rw [← hmessage]
      exact h'.gone s' hs' hvalid'
    · exact .inr (h'.consumed _ hconsumed)
  new s'' hs'' := by
    rcases h'.new s'' hs'' with ⟨s', hs', hmessage⟩ | hfresh
    · rw [← hmessage]
      exact h.new s' hs'
    · exact .inr fun hconsumed ↦ hfresh (h.consumed _ hconsumed)

lemma congr {w w' : View} (h : v.Follows v') (hhist : w.history = v.history)
    (hlast : w.lastConsumed = v.lastConsumed) (hhist' : w'.history = v'.history)
    (hlast' : w'.lastConsumed = v'.lastConsumed) : w.Follows w' := by
  refine ⟨?_, ?_, ?_⟩
  · rw [hlast, hlast']
    exact h.consumed
  · rw [hhist, hhist', hlast']
    exact h.gone
  · rw [hhist, hhist', hlast]
    exact h.new

/-- Some of the oldest samples are consumed, and what is between the older and the newer ones is
replaced. -/
lemma splice (pushed older old new newer : List Sample)
    (hist : v.history = pushed ++ (older ++ (old ++ newer)))
    (hist' : v'.history = older ++ (new ++ newer))
    (hconsumed : ∀ m, Consumed v.lastConsumed m → Consumed v'.lastConsumed m)
    (hpushed : ∀ s ∈ pushed, s.validData → Consumed v'.lastConsumed s.message)
    (hold : ∀ s ∈ old, s.validData → (∃ s' ∈ new, s'.message = s.message ∧ s'.validData) ∨
        Consumed v'.lastConsumed s.message)
    (hnew : ∀ s' ∈ new, (∃ s ∈ old, s.message = s'.message) ∨
      ¬Consumed v.lastConsumed s'.message) : v.Follows v' where
  consumed := hconsumed
  gone s hs hvalid := by
    rw [hist']
    simp only [hist, mem_append] at hs
    rcases hs with hs | hs | hs | hs
    · exact .inr (hpushed s hs hvalid)
    · exact .inl ⟨s, by simp [hs], rfl, hvalid⟩
    · refine (hold s hs hvalid).imp_left ?_
      rintro ⟨s', hs', h⟩
      exact ⟨s', by simp [hs'], h⟩
    · exact .inl ⟨s, by simp [hs], rfl, hvalid⟩
  new s' hs' := by
    rw [hist]
    simp only [hist', mem_append] at hs'
    rcases hs' with hs' | hs' | hs'
    · exact .inl ⟨s', by simp [hs'], rfl⟩
    · refine (hnew s' hs').imp_left ?_
      rintro ⟨s, hs, h⟩
      exact ⟨s, by simp [hs], h⟩
    · exact .inl ⟨s', by simp [hs'], rfl⟩

end Follows

lemma lastConsumed_pushOut (rest pushed : List Sample) {v : View}
    (hplain : ∀ s ∈ pushed, Plain s.message) (hb : v.lastConsumed.isImplicit = false) :
    (v.pushOut rest pushed).lastConsumed.isImplicit = false ∧
      (∀ m, Consumed v.lastConsumed m → Consumed (v.pushOut rest pushed).lastConsumed m) ∧
      ∀ s ∈ pushed, s.message.state.write →
        Consumed (v.pushOut rest pushed).lastConsumed s.message := by
  induction pushed generalizing v with
  | nil => exact ⟨hb, fun m hm ↦ hm, by simp⟩
  | cons s pushed ih =>
    have hs := hplain s mem_cons_self
    have hrest := fun x hx ↦ hplain x (mem_cons_of_mem s hx)
    obtain ⟨himplicit, hmono, hgone⟩ := ih (v := v.remove [] s (pushed ++ rest)) hrest
      (isImplicit_consume hs.explicit hb)
    refine ⟨himplicit, fun m hm ↦ hmono m (hm.consume hs.explicit hb), fun x hx hwrite ↦ ?_⟩
    rcases mem_cons.mp hx with rfl | hx
    · exact hmono _ (consumed_consume hs.explicit (hs.unregister hwrite) hb)
    · exact hgone x hx hwrite

/-! ### Edits -/

lemma Sound.write_of_valid {v : View} (h : v.Sound) {s : Sample} (hs : s ∈ v.history)
    (hvalid : s.validData) : s.message.state.write := by
  have hboth := (h.history s hs).valid.symm.trans hvalid
  exact (Bool.and_eq_true_iff.mp hboth).1

namespace Ordered

variable {v v' : View} {qos : ReaderQos}

/-- Samples are removed, or changed without touching their messages. -/
lemma of_sublist (h : v.Ordered)
    (hsub : (v'.history.map Sample.message).Sublist (v.history.map Sample.message))
    (hpending : ∀ s ∈ v'.pending, Plain s.message)
    (hb : v'.lastConsumed.isImplicit = false) : v'.Ordered where
  sorted := by
    have hmap := hsub.map Message.sourceKey
    rw [map_map, map_map] at hmap
    exact h.sorted.sublist hmap
  history s hs := by
    obtain ⟨x, hx, heq⟩ := mem_map.mp (hsub.subset (mem_map_of_mem hs))
    rw [← heq]
    exact h.history x hx
  pending := hpending
  bookmark := hb

lemma link (h : v.Ordered) (pushed older : List Sample) (s : Sample) (newer : List Sample)
    (hv : v.Sound) (hsource : qos.bySourceTime)
    (hist : v.history = pushed ++ (older ++ newer)) (hist' : v'.history = older ++ s :: newer)
    (hlast : v'.lastConsumed = (v.pushOut (older ++ newer) pushed).lastConsumed)
    (hadm : Admissible qos s.message v.lastConsumed (pushed ++ older) newer)
    (hplain : Plain s.message) (hpending : ∀ s ∈ v'.pending, Plain s.message) :
    v.Follows v' ∧ v'.Ordered := by
  have hold : ∀ x ∈ pushed ++ (older ++ newer), Plain x.message := hist ▸ h.history
  have hmem : ∀ x ∈ pushed, x ∈ v.history := fun x hx ↦ by simp [hist, hx]
  obtain ⟨himplicit, hmono, hgone⟩ := lastConsumed_pushOut (older ++ newer) pushed
    (fun x hx ↦ hold x (mem_append_left _ hx)) h.bookmark
  rw [← hlast] at himplicit hmono hgone
  constructor
  · have hfresh : ¬Consumed v.lastConsumed s.message := by
      rw [consumed_iff hplain.explicit h.bookmark]
      exact fun hne ↦ hne (hadm.fresh hsource)
    refine .splice pushed older [] [s] newer hist hist' hmono (fun x hx hvalid ↦ ?_) (by simp)
      (by simpa using hfresh)
    exact hgone x hx (hv.write_of_valid (hmem x hx) hvalid)
  · refine ⟨?_, ?_, hpending, himplicit⟩
    · have hsorted := h.sorted
      rw [hist, map_append, map_append] at hsorted
      rw [hist', map_append, map_cons]
      refine Library.SortedList.pairwise_insert hsorted (fun k hk ↦ ?_) (fun k hk ↦ ?_)
      · rw [← map_append, getLast?_map, Option.map_eq_some_iff] at hk
        obtain ⟨x, hx, rfl⟩ := hk
        have hgt := hadm.older hsource x hx
        have hfront : x ∈ pushed ++ older := mem_of_getLast? hx
        have hx' := hold x (by
          rw [← append_assoc]
          exact mem_append_left newer hfront)
        rwa [messageCompare_eq_compare hplain.explicit hx'.explicit, compare_gt_iff_gt] at hgt
      · obtain ⟨x, hx, rfl⟩ := mem_map.mp hk
        have hlt := hadm.newer hsource x hx
        have hx' := hold x (by simp [hx])
        rwa [messageCompare_eq_compare hplain.explicit hx'.explicit, compare_lt_iff_lt] at hlt
    · rw [hist']
      exact forall_mem_insert (fun x hx ↦ hold x (mem_append_right _ hx)) hplain

end Ordered

end View

variable (hsource : qos.bySourceTime = true) (hadmits : ∀ m, ok (.admits m) → Plain m)
include hsource hadmits

lemma Edit.follows {v v' : View} (hreset : ¬ok .resetsBookmark) (hv : v.Sound)
    (ho : v.Ordered) (h : Edit qos ok v v') : v.Follows v' ∧ v'.Ordered := by
  cases h with
  | remove older s newer hist =>
    have hs := ho.history s (by simp [hist])
    refine ⟨.splice [] older [s] [] newer
      (by simp [hist]) rfl (fun m hm ↦ hm.consume hs.explicit ho.bookmark) (by simp) ?_ (by simp),
      ho.of_sublist ?_ ho.pending (isImplicit_consume hs.explicit ho.bookmark)⟩
    · refine forall_mem_singleton.mpr fun hvalid ↦ ?_
      have hwrite := hv.write_of_valid (by simp [hist]) hvalid
      exact .inr (consumed_consume hs.explicit (hs.unregister hwrite) ho.bookmark)
    · simp [hist, View.remove]
  | mark older s _ _ newer hist =>
    refine ⟨.splice [] older [s] [_] newer (by simp [hist]) rfl (fun m hm ↦ hm) (by simp) ?_ ?_,
      ho.of_sublist (by simp [hist, View.mark]) ho.pending ho.bookmark⟩
    · exact forall_mem_singleton.mpr fun hvalid ↦ .inl ⟨_, mem_singleton_self _, rfl, hvalid⟩
    · exact forall_mem_singleton.mpr (.inl ⟨s, mem_singleton_self s, rfl⟩)
  | replace older s newer hist hheld =>
    have hs := hv.history s (by simp [hist])
    refine ⟨.splice [] older [s] [] newer
      (by simp [hist]) rfl (fun m hm ↦ hm) (by simp) ?_ (by simp),
      ho.of_sublist (by simp [hist, release]) ho.pending ho.bookmark⟩
    exact forall_mem_singleton.mpr fun hvalid ↦ by simp [hs.valid, hheld] at hvalid
  | insert pushed older newer _ _ _ _ hadmit hist hadm =>
    refine ho.link pushed older _ newer hv hsource hist rfl ?_ hadm (hadmits _ hadmit) ?_
    · simp [link, create]
    · simpa [link, create] using ho.pending
  | hold older newer _ _ _ hadmit _ hist _ hadm =>
    refine ho.link [] older _ newer hv hsource hist rfl ?_ hadm (hadmits _ hadmit) ?_
    · simp [View.hold, View.create, View.pushOut]
    · simpa [View.hold, View.create] using ho.pending
  | pend _ _ _ _ _ hadmit _ _ hist =>
    refine ⟨(View.Follows.refl v).congr rfl rfl ?_ ?_, ho.of_sublist ?_ ?_ ?_⟩
    · simp [create]
    · simp [create]
    · simp [create]
    · exact forall_mem_insert (fun x hx ↦ ho.pending x (hist ▸ hx)) (hadmits _ hadmit)
    · simpa [create] using ho.bookmark
  | drop s _ hpend =>
    rw [drop_eq]
    refine ⟨(View.Follows.refl v).congr rfl rfl rfl rfl, ho.of_sublist (.refl _) ?_ ho.bookmark⟩
    exact fun x hx ↦ ho.pending x (by rw [hpend]; exact mem_cons_of_mem s hx)
  | flush s rest pushed older newer read hpend _ hist hadm =>
    have hrest : ∀ x ∈ rest, Plain x.message := fun x hx ↦ ho.pending x (by simp [hpend, hx])
    have ho' : ({ v with pending := rest } : View).Ordered :=
      ho.of_sublist (.refl _) hrest ho.bookmark
    have hv' : ({ v with pending := rest } : View).Sound :=
      ⟨hv.history, fun x hx ↦ hv.pending x (by rw [hpend]; exact mem_cons_of_mem s hx)⟩
    have hlink : View.Follows { v with pending := rest } ((pushOut (older ++ newer) pushed
        { v with pending := rest }).link older s read newer) ∧ View.Ordered _ :=
      ho'.link pushed older _ newer hv' hsource hist rfl rfl hadm
        (ho.pending s (by simp [hpend])) (by simpa [link] using hrest)
    exact ⟨hlink.1.congr rfl rfl rfl rfl, hlink.2⟩
  | expose pushed older s newer _ hist hheld =>
    have hmem : ∀ x ∈ pushed, x ∈ v.history := fun x hx ↦ by simp [hist, hx]
    obtain ⟨himplicit, hmono, hgone⟩ := lastConsumed_pushOut (older ++ s :: newer) pushed
      (fun x hx ↦ ho.history x (hmem x hx)) ho.bookmark
    have hs := hv.history s (by simp [hist])
    refine ⟨.splice pushed older [s] [_] newer (by simpa using hist) rfl hmono
      (fun x hx hvalid ↦ ?_) ?_ ?_, ho.of_sublist ?_ ?_ himplicit⟩
    · exact hgone x hx (hv.write_of_valid (hmem x hx) hvalid)
    · exact forall_mem_singleton.mpr fun hvalid ↦ by simp [hs.valid, hheld] at hvalid
    · exact forall_mem_singleton.mpr (.inl ⟨s, mem_singleton_self s, rfl⟩)
    · simp [hist, link]
    · simpa [link] using ho.pending
  | vanish pushed rest _ _ _ hist =>
    have hmem : ∀ x ∈ pushed, x ∈ v.history := fun x hx ↦ by simp [hist, hx]
    obtain ⟨himplicit, hmono, hgone⟩ := lastConsumed_pushOut rest pushed
      (fun x hx ↦ ho.history x (hmem x hx)) ho.bookmark
    have hhist := pushOut_history _ _ _ hist
    refine ⟨.splice pushed [] [] [] rest (by simpa using hist)
      (by simpa using hhist) hmono (fun x hx hvalid ↦ ?_) (by simp) (by simp),
      ho.of_sublist ?_ ?_ himplicit⟩
    · exact hgone x hx (hv.write_of_valid (hmem x hx) hvalid)
    · simp [hist, hhist]
    · simpa using ho.pending
  | reject =>
    exact ⟨(View.Follows.refl v).congr rfl rfl rfl rfl,
      ho.of_sublist (.refl _) ho.pending ho.bookmark⟩
  | reset h => exact absurd h hreset

lemma Edits.follows {v v' : View} (hreset : ¬ok .resetsBookmark) (hv : v.Sound)
    (ho : v.Ordered) (h : Edits qos ok v v') : v.Follows v' ∧ v'.Ordered := by
  induction h with
  | refl => exact ⟨.refl v, ho⟩
  | tail hpre hedit ih =>
    have hstep := hedit.follows hsource hadmits hreset (Edits.sound hv hpre) ih.2
    exact ⟨ih.1.trans hstep.1, hstep.2⟩

end OpenSplice.Kernel
