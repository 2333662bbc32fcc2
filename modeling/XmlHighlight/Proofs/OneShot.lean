import XmlHighlight.Program
import XmlHighlight.Proofs.PassRuns

/-!
# One shot — a document is highlighted once

A host that handles requests up to the end of a pass handles exactly those of the pass. What it
prints then is the document as a scan of it that nobody interrupts leaves it, its spans painted in a
single batch.

* `Session.OnCourse.pump` — a host that handles requests one after the other;
* `StyledBuffer.render_congr` — what is printed depends on the text and its styling alone;
* `highlightOnce_eq` — the surface at the end, and what is made known;
* `background_refines_scan` — worker, host and program against a scan of the text.
-/

namespace XmlHighlight

/-! ### A host that waits for the end of a pass -/

namespace Session

variable {settings : Settings} {surface : Surface} {handled : List Request} {s : Session}

theorem OnCourse.connected (h : s.OnCourse settings surface handled) :
    s.surroundings.connected = true := by
  obtain ⟨-, -, queue, owed, hchannel, -⟩ := h
  exact congrArg Option.isSome hchannel

/-- The worker goes on until it has to wait. -/
theorem OnCourse.goOn (h : s.OnCourse settings surface handled) :
    s.goOn.OnCourse settings surface handled ∧
    s.goOn.worker.advance? s.goOn.surroundings = none := by
  fun_induction Session.goOn s with
  | case1 s hblocked => exact ⟨h, hblocked⟩
  | case2 s t hadvance ih =>
    exact ih (h.apply rfl h.connected s.isTyping_surroundings hadvance)

/-- **Step.** As long as a pass is not over, the worker goes on until the next request of the pass
    can be handled. -/
theorem OnCourse.step? (h : s.OnCourse settings surface handled) {r : Request} {more : List Request}
    (hmore : handled ++ r :: more = passRequests settings surface.buffer.text) :
    ∃ next, s.step? = some (r.event, next) ∧ next.OnCourse settings surface (handled ++ [r]) := by
  obtain ⟨hgo, hblocked⟩ := h.goOn
  have hpart : handled ≠ passRequests settings surface.buffer.text := by
    rw [← hmore]
    intro hsame
    cases List.append_right_eq_self.mp hsame.symm
  rcases hgo.goes_on rfl hgo.connected hpart with hworks | hhandles
  · rw [hblocked] at hworks
    cases hworks
  · obtain ⟨⟨event, next⟩, hnext⟩ := Option.isSome_iff_exists.mp hhandles
    obtain ⟨r', hevent, hcourse⟩ := hgo.handleNext? hnext
    -- The request is the next one of the pass.
    obtain ⟨-, -, queue, owed, -, -, -, -, hall⟩ := id hcourse
    rw [← hmore, List.append_assoc, List.append_assoc, List.append_cancel_left_eq] at hall
    obtain rfl : r' = r := (List.cons.inj hall).1
    obtain rfl : event = r'.event := hevent
    exact ⟨next, hnext, hcourse⟩

/-- **Run.** A host that is patient enough handles the requests of a pass and no others. By
    induction on its patience. -/
theorem OnCourse.pump (h : s.OnCourse settings surface handled) (patience : Nat)
    {pending : List Request}
    (hpending : handled ++ pending = passRequests settings surface.buffer.text) (hne : pending ≠ [])
    (hpatience : pending.length ≤ patience) :
    ∃ last, s.pump patience none = (pending.map Request.event, last) ∧
      last.OnCourse settings surface (passRequests settings surface.buffer.text) := by
  induction patience generalizing s handled pending with
  | zero => exact absurd (List.eq_nil_of_length_eq_zero (Nat.le_zero.mp hpatience)) hne
  | succ patience ih =>
    cases pending with
    | nil => exact absurd rfl hne
    | cons r more =>
      obtain ⟨next, hstep, hcourse⟩ := h.step? hpending
      have hends := endsPass_eq_isEmpty hpending
      have hpending' : (handled ++ [r]) ++ more = passRequests settings surface.buffer.text := by
        rw [List.append_assoc]
        exact hpending
      simp only [Session.pump, hstep, interrupt, hends]
      -- The request just handled was the last of the pass exactly if nothing is left to handle.
      cases more with
      | nil =>
        rw [List.append_nil] at hpending'
        refine ⟨_, rfl, ?_⟩
        rw [← hpending']
        exact hcourse.goOn.1
      | cons r' more =>
        obtain ⟨last, hpump, hlast⟩ := ih hcourse hpending' (by simp) (by simpa using hpatience)
        exact ⟨last, by rw [hpump]; rfl, hlast⟩

end Session

/-- A host that waits for a document to be highlighted for the first time. -/
theorem pump_load (settings : Settings) (buffer : StyledBuffer) {patience : Nat}
    (hpatience : (passEvents settings buffer.text).length ≤ patience) :
    ∃ s, ((Session.start settings buffer).load none).pump patience none
        = (passEvents settings buffer.text, s) ∧
      s.OnCourse settings (.ofBuffer buffer) (passRequests settings buffer.text) := by
  have hcourse : ((Session.start settings buffer).load none).OnCourse settings (.ofBuffer buffer)
    [] :=
    Session.onCourse_notice settings (.ofBuffer buffer)
  rw [← map_event_passRequests, List.length_map] at hpatience
  obtain ⟨s, hpump, hover⟩ :=
    hcourse.pump patience (List.nil_append _) (List.cons_ne_nil _ _) hpatience
  rw [← map_event_passRequests]
  exact ⟨s, hpump, hover⟩

/-! ### What is printed -/

/-- What is printed depends on the text and its styling alone. -/
theorem StyledBuffer.render_congr {a b : StyledBuffer} (htext : a.text = b.text)
    (hclasses : a.classes = b.classes) (theme : Theme) (format : Format) :
    a.render theme format = b.render theme format := by
  obtain ⟨text, classes, status, progress, resets, batches⟩ := a
  obtain rfl : text = b.text := htext
  obtain rfl : classes = b.classes := hclasses
  cases format <;> rfl

/-- The failure of a pass is the last thing that is made known in it. -/
theorem getLast?_passEvents (settings : Settings) (text : String) :
    (passEvents settings text).getLast?.bind Event.message?
      = failureMessage? (scanOf settings text).ending := by
  obtain ⟨init, last, hall, -, hmessage, -⟩ := passRequests_ends settings text
  rw [← map_event_passRequests, hall, List.map_append, List.map_singleton, List.getLast?_concat,
    Option.bind_some, hmessage]

/-- The surface at the end has the text and the styling that it should have, and a failure of the
    scan is made known. -/
theorem highlightOnce_eq {settings : Settings} {text : String}
    (hpatience : (passEvents settings text).length ≤ patience) :
    ∃ buffer,
      highlightOnce settings text = (buffer, failureMessage? (scanOf settings text).ending) ∧
      buffer.text = text ∧
      buffer.classes
        = ((StyledBuffer.ofText text).resetStyling.applyBatch
          (scanOf settings text).spans).classes := by
  obtain ⟨s, hpump, hcourse⟩ := pump_load settings (.ofText text) hpatience
  obtain ⟨surface, hchannel, htext, hclasses⟩ := hcourse.finished
  refine ⟨surface.buffer, ?_, htext, hclasses⟩
  have hpump : ((Session.start settings (.ofText text)).load none).pump patience none
      = (passEvents settings text, s) := hpump
  rw [← getLast?_passEvents, highlightOnce]
  simp only [hpump, hchannel]
  cases (passEvents settings text).getLast? with
  | none => rfl
  | some e => cases e <;> rfl

/-! ### Worker, host and program -/

/-- **Refinement.** The signal is set once for a document. However the worker, the host and time
    take turns then, what is done for requests is a beginning of what a scan of the text amounts to.
    As long as something is missing, the worker or the host can go on, and the number of their turns
    is bounded. When nothing is missing, the text is as before and has the styling of a single batch
    of all spans of the scan, painted on a buffer without styling. Of what is done only the last
    thing ends a pass, so that a host who waits for that, and is patient enough, has done exactly
    this much. So the program prints that buffer and succeeds, and the message that it has for the
    user tells why the scan has failed, if it has. What goes into the log is no part of this. -/
theorem background_refines_scan (settings : Settings) (buffer : StyledBuffer) :
    let text := buffer.text
    let expected := passEvents settings text
    let styled := buffer.resetStyling.applyBatch (scanOf settings text).spans
    let IsStyled (channel : Option Channel) := ∃ surface, channel = some ⟨surface, []⟩ ∧
      surface.buffer.text = text ∧ surface.buffer.classes = styled.classes
    (∀ (quietPeriod hands hand : Nat) (before after : List Move) (c : Workplace),
      let start := Workplace.start settings quietPeriod hands buffer
      let events := start.events (before ++ .set hand :: after)
      (∀ m ∈ before ++ after, m.IsQuiet) → start.run? (before ++ .set hand :: after) = some c →
        events <+: expected ∧
          (events ≠ expected → (c.move? .work).isSome = true ∨ (c.move? .handle).isSome = true) ∧
          (events = expected → IsStyled c.session.channel) ∧
          after.countP Move.isTurn ≤ 2 * ((Pass.ofText settings text).weight + 8)) ∧
    (∃ early last, expected = early ++ [last] ∧ last.endsPass = true ∧
      ∀ e ∈ early, e.endsPass = false) ∧
    (∀ patience, expected.length ≤ patience →
      ∃ s, ((Session.start settings buffer).load none).pump patience none = (expected, s) ∧
        IsStyled s.channel) ∧
    ∀ (run : RunConfig) (theme : Theme), run.highlighting.scan = settings → buffer = .ofText text →
      expected.length ≤ patience →
        let output := Output.ofText run theme text
        output.code = 0 ∧ output.stdout = styled.render theme run.format ∧
          (highlightOnce run.highlighting.scan text).2
            = failureMessage? (scanOf settings text).ending := by
  intro text expected styled IsStyled
  refine ⟨?_, ?_, ?_, ?_⟩
  · intro quietPeriod hands hand before after c start events hquiet hrun
    obtain ⟨done, hevents, hcourse, hbound⟩ := Workplace.run?_of_set hquiet hrun
    have hevents : events = done.map Request.event := hevents
    have hexpected : expected = (passRequests settings text).map Request.event :=
      (map_event_passRequests settings text).symm
    obtain ⟨-, -, queue, owed, -, -, -, -, hall⟩ := id hcourse.session
    -- What has been handled, what is queued and what the worker still owes make up the whole pass.
    have hall : done ++ (queue ++ owed) = passRequests settings text :=
      (List.append_assoc _ _ _).symm.trans hall
    have hdone : events = expected → done = passRequests settings text := by
      intro hsame
      rw [hevents, hexpected] at hsame
      have hlength := congrArg List.length hsame
      rw [List.length_map, List.length_map, ← hall, List.length_append] at hlength
      rw [← hall, List.eq_nil_of_length_eq_zero (Nat.left_eq_add.mp hlength), List.append_nil]
    refine ⟨?_, ?_, ?_, hbound⟩
    · refine ⟨(queue ++ owed).map Request.event, ?_⟩
      rw [hevents, hexpected, ← List.map_append, hall]
    · intro hne
      have hpart : done ≠ passRequests settings text := by
        rintro rfl
        exact hne (hevents.trans hexpected.symm)
      have hgoes := hcourse.session.goes_on (show c.surroundings.signal = c.session.signal from rfl)
        hcourse.connected hpart
      simpa only [Workplace.move?, Option.isSome_map] using hgoes
    · intro hall
      rw [hdone hall] at hcourse
      exact hcourse.session.finished
  · obtain ⟨init, last, hall, hlast, -, hinit⟩ := passRequests_ends settings text
    refine ⟨init.map Request.event, last.event, ?_, hlast, ?_⟩
    · rw [← List.map_singleton, ← List.map_append, ← hall, map_event_passRequests]
    · intro e he
      obtain ⟨r, hr, rfl⟩ := List.mem_map.mp he
      exact hinit r hr
  · intro patience hpatience
    obtain ⟨s, hpump, hcourse⟩ := pump_load settings buffer hpatience
    exact ⟨s, hpump, hcourse.finished⟩
  · rintro run theme rfl hbuffer hpatience
    obtain ⟨shown, hshown, htext, hclasses⟩ := highlightOnce_eq hpatience
    have hrender : shown.render theme run.format = styled.render theme run.format := by
      refine StyledBuffer.render_congr (b := styled) htext ?_ theme run.format
      rw [hclasses, ← hbuffer]
    simp only [Output.ofText, hshown]
    exact ⟨trivial, hrender, trivial⟩

/-- The worker sends the spans of an element before its first report of progress has been shown. -/
theorem background_refines_scan_element :
    let start := Workplace.start {} 0 1 (.ofText "<a/>")
    let after : List Move :=
      [.work, .work, .work, .handle, .work, .handle, .work, .work, .work, .work,
      .handle, .handle, .work, .work, .handle]
    let styled := (StyledBuffer.ofText "<a/>").resetStyling.applyBatch (scanOf {} "<a/>").spans
    start.events ([] ++ .set 0 :: after) = passEvents {} "<a/>" ∧
      (∃ c surface, start.run? ([] ++ .set 0 :: after) = some c ∧
        c.session.channel = some ⟨surface, []⟩ ∧ surface.buffer.classes = styled.classes) ∧
      (passEvents {} "<a/>").length ≤ patience ∧
      (Output.ofText ⟨"a.xml", false, "classic", .ansi, ⟨0, {}⟩⟩ .classic "<a/>").stdout
        = styled.toAnsi .classic := by
  intro start after styled
  obtain ⟨hruns, -, -, hprogram⟩ := background_refines_scan {} (.ofText "<a/>")
  have hquiet : ∀ m ∈ [] ++ after, m.IsQuiet := by simp [after, Move.IsQuiet]
  have hgoes : (start.run? ([] ++ .set 0 :: after)).isSome = true := by decide +kernel
  have hevents : start.events ([] ++ .set 0 :: after) = passEvents {} "<a/>" := by decide +kernel
  have hpatience : (passEvents {} "<a/>").length ≤ patience := by decide +kernel
  obtain ⟨c, hrun⟩ := Option.isSome_iff_exists.mp hgoes
  obtain ⟨-, -, hover, -⟩ := hruns 0 1 0 [] after c hquiet hrun
  obtain ⟨surface, hchannel, -, hclasses⟩ := hover hevents
  refine ⟨hevents, ⟨c, surface, hrun, hchannel, hclasses⟩, hpatience, ?_⟩
  exact (hprogram ⟨"a.xml", false, "classic", .ansi, ⟨0, {}⟩⟩ .classic rfl rfl hpatience).2.1

end XmlHighlight
