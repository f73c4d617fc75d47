import ExpiringHash.Proofs.Database.Events

/-!
# What reclaiming spares

Reclaiming expired fields takes away records that have expired and keys of which nothing else was left.
All other records stay as they are, no container is left without fields that had some, and the
commands that are sent tell of what has gone and of nothing else.
-/
namespace ExpiringHash.Database

variable {now : UInt64} {d d' d'' : Database} {key field : Bytes} {c : Command} {t : Trigger}
  {ev : Event} {evs : List Event}

/-- There are records under the key, and all of them have expired. -/
structure Lapsed (now : UInt64) (d : Database) (key : Bytes) : Prop where
  exist : ∃ field r, d.record? key field = some r
  all : ∀ {field r}, d.record? key field = some r → r.isExpired now = true

/-- Nothing is lost but what has expired, and nothing is new. -/
structure Spares (now : UInt64) (d d' : Database) : Prop where
  foreign : ∀ {key type payload}, d.keys.get? key = some (.foreign type payload) →
    d'.keys.get? key = some (.foreign type payload)
  absent : ∀ {key}, d.keys.get? key = none → d'.keys.get? key = none
  /-- A key goes only if all there was of it had expired. -/
  key : ∀ {key}, d'.keys.get? key = none → d.keys.get? key = none ∨ d.Lapsed now key
  /-- A record is as it was, or it had expired and is gone. -/
  record : ∀ key field, d'.record? key field = d.record? key field ∨
    d'.record? key field = none ∧ ∃ r, d.record? key field = some r ∧ r.isExpired now = true
  holdsEmpty : ∀ {key}, d'.keys.holdsEmpty key = true → d.keys.holdsEmpty key = true

/-- The command tells of an expired record that is gone, or of a key that is gone with all of its
records expired. -/
inductive TellsOfLapse (now : UInt64) (d d' : Database) : Command → Prop
  | field {key field : Bytes} {r : Record} (hr : d.record? key field = some r)
      (hx : r.isExpired now = true) (hgone : d'.record? key field = none) :
      TellsOfLapse now d d' (.delete key field)
  | key {key : Bytes} (h : d.Lapsed now key) (hgone : d'.keys.get? key = none) :
      TellsOfLapse now d d' (.deleteKey key)

namespace Spares

theorem refl (now : UInt64) (d : Database) : d.Spares now d where
  foreign := id
  absent := id
  key := .inl
  record _ _ := .inl rfl
  holdsEmpty := id

/-- Records that are left to expire were there before. -/
theorem record_of_some (h : d.Spares now d') {r : Record} (hr : d'.record? key field = some r) :
    d.record? key field = some r := by
  rcases h.record key field with he | ⟨hnone, -⟩
  · exact he.symm.trans hr
  · rw [hnone] at hr
    cases hr

theorem lapsed (h : d.Spares now d') (hl : d'.Lapsed now key) : d.Lapsed now key := by
  obtain ⟨field, r, hr⟩ := hl.exist
  refine ⟨⟨field, r, h.record_of_some hr⟩, fun {other s} hs => ?_⟩
  rcases h.record key other with he | ⟨-, s', hs', hx⟩
  · exact hl.all (he.trans hs)
  · cases hs'.symm.trans hs
    exact hx

theorem trans (h : d.Spares now d') (h' : d'.Spares now d'') : d.Spares now d'' where
  foreign hv := h'.foreign (h.foreign hv)
  absent hv := h'.absent (h.absent hv)
  key hnone := by
    rcases h'.key hnone with hnone | hl
    · exact h.key hnone
    · exact .inr (h.lapsed hl)
  record key field := by
    rcases h'.record key field with he' | ⟨hnone, r, hr, hx⟩
    · rcases h.record key field with he | ⟨hnone, hexpired⟩
      · exact .inl (he'.trans he)
      · exact .inr ⟨he'.trans hnone, hexpired⟩
    · exact .inr ⟨hnone, r, h.record_of_some hr, hx⟩
  holdsEmpty he := h.holdsEmpty (h'.holdsEmpty he)

end Spares

namespace TellsOfLapse

theorem before (h : d'.TellsOfLapse now d'' c) (hs : d.Spares now d') : d.TellsOfLapse now d'' c := by
  cases h with
  | field hr hx hgone => exact .field (hs.record_of_some hr) hx hgone
  | key hl hgone => exact .key (hs.lapsed hl) hgone

theorem after (h : d.TellsOfLapse now d' c) (hs : d'.Spares now d'') : d.TellsOfLapse now d'' c := by
  cases h with
  | @field key field _ hr hx hgone =>
    refine .field hr hx ?_
    rcases hs.record key field with he | ⟨hnone, -⟩
    · exact he.trans hgone
    · exact hnone
  | key hl hgone => exact .key hl (hs.absent hgone)

end TellsOfLapse

/-- A key that goes with its last field had nothing but expired records. -/
theorem Happens.lapsed (h : d.Happens now (.reclaimed key field t true) d') : d.Lapsed now key := by
  cases h with
  | @emptied _ _ r _ hr hx hlast =>
    refine ⟨⟨field, r, hr⟩, fun {other s} hs => ?_⟩
    by_cases ho : other = field
    · subst ho
      cases hr.symm.trans hs
      exact hx
    · obtain ⟨c, hc, he⟩ := holdsEmpty_iff.mp hlast
      have hnone : (d.withoutField key field).record? key other = none := by
        rw [record?, KeySpace.fieldsAt_of_get? hc]
        exact Fields.isEmpty_iff_get?.mp he other
      rw [record?_withoutField_of_ne (.inr ho), hs] at hnone
      cases hnone

/-- Reclaiming a field spares everything else. -/
theorem Happens.spares (h : d.Happens now ev d') (hr : ev.isReclaim t = true) : d.Spares now d' := by
  obtain ⟨key, field, last, rfl⟩ : ∃ key field last, ev = .reclaimed key field t last := by
    cases ev with
    | reclaimed key field t' last =>
      obtain rfl : t' = t := of_decide_eq_true hr
      exact ⟨key, field, last, rfl⟩
    | _ => cases hr
  have hremoval : (Event.reclaimed key field t last).isRemoval = true := by
    cases t <;> rfl
  obtain ⟨name, r, hf, hget, hnone, hx⟩ := h.of_isRemoval hremoval
  cases hf
  have hget : d.record? key field = some r := hget
  have hsettled : d'.keys.holdsEmpty key = false := h.settled rfl
  refine ⟨h.get?_foreign, fun {other} hv => ?_, fun {other} hv => ?_, fun other name => ?_,
    fun {other} he => ?_⟩
  · rw [h.get?_of_ne, hv]
    rintro (rfl : other = key)
    rw [record?, KeySpace.fieldsAt_of_get?_none hv] at hget
    cases hget
  · by_cases ho : other = key
    · subst ho
      cases last with
      | true => exact .inr h.lapsed
      | false =>
        cases h with
        | reclaimed => cases (get?_rewrite_self ..).symm.trans hv
    · exact .inl ((h.get?_of_ne ho).symm.trans hv)
  · by_cases ho : other = key ∧ name = field
    · obtain ⟨rfl, rfl⟩ := ho
      exact .inr ⟨hnone, r, hget, hx⟩
    · refine .inl (h.record?_of_ne ?_)
      by_cases hk : other = key
      · exact .inr fun hn => ho ⟨hk, Option.some.inj hn⟩
      · exact .inl hk
  · by_cases ho : other = key
    · subst ho
      cases hsettled.symm.trans he
    · rwa [holdsEmpty_congr (h.get?_of_ne ho)] at he

theorem Happens.tellsOfLapse (h : d.Happens now ev d') (hreclaim : ev.isReclaim t = true)
    (hc : c ∈ ev.commands) : d.TellsOfLapse now d' c := by
  cases h with
  | reclaimed t hr hx =>
    obtain rfl := List.mem_singleton.mp hc
    exact .field hr hx (record?_withoutField_self ..)
  | @emptied key field _ t hr hx hlast =>
    have hev : d.Happens now (.reclaimed key field t true) _ := .emptied t hr hx hlast
    obtain ⟨name, _, hf, -, hnone, -⟩ := hev.of_isRemoval (by cases t <;> rfl)
    cases hf
    rcases List.mem_cons.mp hc with rfl | hc
    · exact .field hr hx hnone
    · obtain rfl := List.mem_singleton.mp hc
      exact .key hev.lapsed (get?_deleteKey _ _)
  | _ => cases hreclaim

/-- A course of reclaims spares everything else, and its commands tell of what it does not spare. -/
theorem Course.spares (h : d.Course now evs d') (hr : ∀ ev ∈ evs, ev.isReclaim t = true) :
    d.Spares now d' ∧ ∀ c ∈ evs.flatMap Event.commands, d.TellsOfLapse now d' c := by
  induction h with
  | nil d => exact ⟨.refl now d, nofun⟩
  | @cons d d₁ d' ev evs hev _ ih =>
    obtain ⟨hrest, htells⟩ := ih fun ev hm => hr ev (List.mem_cons_of_mem _ hm)
    have hfirst := hev.spares (hr ev List.mem_cons_self)
    refine ⟨hfirst.trans hrest, fun c hc => ?_⟩
    rw [List.flatMap_cons, List.mem_append] at hc
    rcases hc with hc | hc
    · exact (hev.tellsOfLapse (hr ev List.mem_cons_self) hc).after hrest
    · exact (htells c hc).before hfirst

end ExpiringHash.Database
