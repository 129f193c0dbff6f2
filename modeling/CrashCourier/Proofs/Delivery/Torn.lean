import CrashCourier.Proofs.Delivery.Retention
import CrashCourier.Proofs.Json.PrefixFree
import CrashCourier.Proofs.Report.Roundtrip

/-!
# Torn records

A record is torn when a write was cut short or ran into another: the end of a report is missing, or
something that is not blank stands behind it. `Torn` says so of the octets alone, and it does not ask
where the cut went, whether through a number, an escape or a name.

A torn record is no report (`Torn.not_decoded`): of a text and what it goes on to, at most one is a
record, blanks apart. What is no report is neither handed over nor erased, since both are done with
the pending reports only, and those are the same without it (`pendingOf_without`).
-/

namespace CrashCourier

open Json

/-- The octets that are left of a record after an accident with its end. -/
inductive Torn (record : Bytes) : Bytes → Prop where
  /-- The end is missing, the last closing brace with it. -/
  | cut {kept lost : Bytes} : record = kept ++ lost → 0x7D ∈ lost → Torn record kept
  /-- Something follows that is not blank. -/
  | followed {more : Bytes} {b : UInt8} : b ∈ more → Reader.isBlank b = false →
      Torn record (record ++ more)

namespace CrashReport

/-- A report with more behind it is a report only if the more is blank. -/
theorem blank_of_decode_append {record more : Bytes} {r r' : CrashReport}
    (h : decode record = .ok r) (hmore : decode (record ++ more) = .ok r') : Blank more :=
  ((Record.ofBytes_append_iff rfl h).mp hmore).1

/-- What is written of a report ends with the closing brace. -/
theorem exists_encode_eq (r : CrashReport) : ∃ kept, encode r = kept ++ [0x7D] :=
  ⟨_, rfl⟩

end CrashReport

/-- **A torn record is no report.** -/
theorem Torn.not_decoded {record torn : Bytes} {r : CrashReport} (ht : Torn record torn)
    (h : CrashReport.decode record = .ok r) : ∃ fault, CrashReport.decode torn = .error fault := by
  rcases hdecode : CrashReport.decode torn with fault | r'
  · exact ⟨fault, rfl⟩
  · cases ht with
    | cut hrecord hbrace =>
        -- what is left would be a report that the lost octets go on to another
        rw [hrecord] at h
        have hblank := CrashReport.blank_of_decode_append hdecode h
        exact absurd hblank (not_blank_of_mem hbrace (by decide))
    | followed hmem hb =>
        have hblank := CrashReport.blank_of_decode_append h hdecode
        exact absurd hblank (not_blank_of_mem hmem hb)

variable {σ τ : Type} {view : σ → Records}

namespace Courier

/-- What is no report makes no difference to what is pending. -/
theorem pendingOf_without {m : Records} {id : Int64} {record : Bytes} {fault : Fault}
    (hrecord : m id = some record) (hdecode : CrashReport.decode record = .error fault)
    (ids : List Int64) : pendingOf (m.without [id]) ids = pendingOf m ids := by
  unfold pendingOf
  refine List.filterMap_congr fun i _ => ?_
  by_cases hi : i = id
  · rw [Records.without_of_mem (List.mem_singleton.mpr hi), hi, hrecord, Option.bind_some, hdecode]
    rfl
  · rw [Records.without_of_not_mem fun hmem => hi (List.mem_singleton.mp hmem)]

end Courier

namespace Retention

/-- The calls that a pass makes are about the reports that are pending among some numbers. -/
theorem pass_batches {c : Courier σ τ} (hk : c.store.Keeps view) (w : World σ) (t : τ) (log : Log) :
    ∃ called, (w.pass c t log).calls = w.calls ++ called ∧ ∀ call ∈ called,
      ∃ ids, call.batch = Courier.batchOf c.doctor (Courier.pendingOf (view w.store) ids) := by
  obtain ⟨r, t', hcourse⟩ := pass_course hk w t log
  generalize (w.pass c t log).calls = calls' at hcourse ⊢
  generalize (w.pass c t log).store = s' at hcourse
  have hone {call : Call} {ids : List Int64}
      (hbatch : call.batch = Courier.batchOf c.doctor (Courier.pendingOf (view w.store) ids)) :
      ∀ call' ∈ [call], ∃ ids,
        call'.batch = Courier.batchOf c.doctor (Courier.pendingOf (view w.store) ids) := by
    intro call' hcall
    rw [List.mem_singleton.mp hcall]
    exact ⟨ids, hbatch⟩
  cases hcourse with
  | unlisted | unread | idle => exact ⟨[], (List.append_nil _).symm, List.forall_mem_nil _⟩
  | refused _ _ hanswer | delivered _ _ hanswer | stuck _ _ hanswer =>
      exact ⟨_, (perform_recorded hanswer).2, hone rfl⟩

/--
**A torn record is never mistaken for a report.** If a record is a report, what an accident with its
end leaves is none. And a pass over a store that holds what was left keeps it octet for octet and
makes no call that it has a part in: every batch is made of the other records, whatever those are and
whatever the handler answers.
-/
theorem torn_kept {record torn : Bytes} {r : CrashReport} (h : CrashReport.decode record = .ok r)
    (ht : Torn record torn) :
    (∃ fault, CrashReport.decode torn = .error fault) ∧
    ∀ {σ τ : Type} {view : σ → Records} (c : Courier σ τ), c.store.Keeps view →
      ∀ (w : World σ) (t : τ) (log : Log) (id : Int64), view w.store id = some torn →
        view (w.pass c t log).store id = some torn ∧
        ∃ called, (w.pass c t log).calls = w.calls ++ called ∧ ∀ call ∈ called, ∃ ids,
          call.batch =
            Courier.batchOf c.doctor (Courier.pendingOf ((view w.store).without [id]) ids) := by
  obtain ⟨fault, hdecode⟩ := ht.not_decoded h
  refine ⟨⟨fault, hdecode⟩, ?_⟩
  intro σ τ view c hk w t log id hid
  refine ⟨?_, ?_⟩
  · rcases pass_kept hk w t log hid with hkept | ⟨call, _, report, _, hok, _⟩
    · exact hkept
    · -- only a report is confirmed
      rw [hdecode] at hok
      cases hok
  · obtain ⟨called, hcalls, hbatches⟩ := pass_batches hk w t log
    refine ⟨called, hcalls, ?_⟩
    intro call hcall
    obtain ⟨ids, hbatch⟩ := hbatches call hcall
    refine ⟨ids, ?_⟩
    rw [hbatch, Courier.pendingOf_without hid hdecode]

/-- Between two reports a third one has lost its closing brace. The handler confirms every batch and
the identifier of the third, and the third stays. -/
theorem torn_between_kept :
    ∃ torn, (∃ fault, CrashReport.decode torn = .error fault) ∧
      let s := ((MemoryStore.empty.put 1 (CrashReport.encode (.bare "a"))).put 2 torn).put 3
        (CrashReport.encode (.bare "c"))
      let c : Courier MemoryStore Script := ⟨.memory, .scripted, CrashReport.diagnose⟩
      let w := (⟨s, MemoryStore.view s, []⟩ : World MemoryStore).pass c
        ⟨[.reports ["a", "b", "c"]], []⟩ []
      MemoryStore.view w.store 2 = some torn ∧
        ∀ call ∈ w.calls, ∃ ids, call.batch = Courier.batchOf CrashReport.diagnose
          (Courier.pendingOf ((MemoryStore.view s).without [2]) ids) := by
  obtain ⟨torn, hwritten⟩ := CrashReport.exists_encode_eq (.bare "b")
  have htorn : Torn (CrashReport.encode (.bare "b")) torn := .cut hwritten (List.mem_singleton.mpr rfl)
  obtain ⟨hfault, hpass⟩ := torn_kept (CrashReport.decode_encode_bare "b") htorn
  refine ⟨torn, hfault, ?_⟩
  intro s c w
  have hs : MemoryStore.view s 2 = some torn := rfl
  obtain ⟨hkept, called, hcalls, hbatches⟩ := hpass c MemoryStore.keeps
    ⟨s, MemoryStore.view s, []⟩ ⟨[.reports ["a", "b", "c"]], []⟩ [] 2 hs
  refine ⟨hkept, ?_⟩
  intro call hcall
  refine hbatches call ?_
  rw [List.nil_append] at hcalls
  rw [← hcalls]
  exact hcall

end Retention

end CrashCourier
