import XmlHighlight.Proofs.Interleaving

/-!
# Convergence — no edit is lost

A hand that has edited sets the signal later on, and whoever clears the signal begins anew. So
whatever the worker does is either right for the text as it is or about to be done again, and what
it shows when everything has come to rest is right.

* `Workplace.Pending` — the signal is set, or somebody is going to set it;
* `Workplace.OnTrack` — what a worker has achieved if nothing is pending;
* `Workplace.Invariant` — the invariant, with `Workplace.Invariant.move` as the step and
  `Workplace.Invariant.run` as the run;
* `no_edit_is_lost` — the surface when everything has come to rest.
-/

namespace XmlHighlight

namespace Workplace

/-- The worker is going to be told to begin anew, or has been told. -/
def Pending (c : Workplace) : Prop := c.session.signal.isSet = true ∨ ∃ hand ∈ c.hands, hand ≠ .idle

/-- What a worker has achieved for a surface if nobody has edited its text in the meantime. The
    surface is the one that comes of all requests on their way. -/
def OnTrack (c : Workplace) (s : Surface) : Worker → Prop
  | .waiting =>
    c.lastPass = some ⟨s.buffer.text, some (scanOf c.session.settings s.buffer.text).ending⟩ ∧
      s.IsHighlighted c.session.settings ∧ s.IndicatorHidden
  | .settling => True
  -- Whoever is found typing after that has edited while the worker slept.
  | .sleeping wakeTime => ∀ time, c.edits.lastEdit = some time → time + c.quietPeriod ≤ wakeTime
  | .reading => True
  | .awaitingText => True
  | .resetting text => s.buffer.text = text
  | .awaitingReset text =>
    s.buffer.text = text ∧ s.buffer.classes = Array.replicate s.buffer.classes.size none
  | .scanning p => p.IsSound c.session.settings s
  | .awaitingBatch p => p.IsSound c.session.settings s
  | .notifying _ =>
    c.lastPass = some ⟨s.buffer.text, some (scanOf c.session.settings s.buffer.text).ending⟩ ∧
      s.IsHighlighted c.session.settings
  | .stopped => False

/-- What holds whatever has happened, as long as the surface is there. -/
structure Invariant (settings : Settings) (c : Workplace) : Prop where
  settings_eq : c.session.settings = settings
  lastEdit_le : ∀ time, c.edits.lastEdit = some time → time ≤ c.now
  fits : ∀ channel, c.session.channel = some channel → c.session.worker.Fits channel.queue
  onTrack : ∀ channel, c.session.channel = some channel → c.everSet = true → ¬ c.Pending →
    c.OnTrack channel.outlook c.session.worker

/-- The invariant holds of a worker that has just been started. -/
theorem invariant_start (settings : Settings) (quietPeriod hands : Nat) (buffer : StyledBuffer) :
    (start settings quietPeriod hands buffer).Invariant settings where
  settings_eq := rfl
  lastEdit_le := by
    intro time htime
    cases htime
  fits := by
    intro channel hchannel
    cases hchannel
    trivial
  onTrack := by
    intro channel _ hset
    cases hset

/-! ### The worker goes on -/

variable {settings : Settings} {c d : Workplace}

/-- A scan that goes on, and is not told to stop, stays on track. -/
theorem onTrack_advanceScan {s : Surface} {p : Pass} {t : Turn}
    (hworker : c.session.worker = .scanning p) (h : p.IsSound c.session.settings s)
    (hconnected : c.session.channel.isSome = true) (hunset : c.session.signal.isSet = false)
    (hadvance : Worker.advanceScan p c.surroundings = t) :
    (c.follow (c.session.apply t)).OnTrack (s.afterAny t.request) t.worker := by
  have hlost : p.lost = false := h.lost_eq
  subst hadvance
  -- Each case says first what the turn is. Then the outlook of the scan is unchanged by it.
  cases htodo : p.todo with
  | nil =>
    have hhighlighted : s.IsHighlighted c.session.settings := by
      have := h.isHighlighted
      rwa [htodo] at this
    have hlast : ∀ w : Worker, w = .waiting ∨ (∃ m, w = .notifying m) →
        PassRecord.next c.lastPass c.session.worker w
          = some ⟨s.buffer.text, some (scanOf c.session.settings s.buffer.text).ending⟩ := by
      rw [hworker, h.text_eq, ← h.ending_eq]
      rintro w (rfl | ⟨m, rfl⟩) <;> rfl
    rcases ending_scanOf c.session.settings p.text with hend | ⟨e, hend⟩
    · rw [← h.ending_eq] at hend
      have hhidden := h.indicatorHidden hend
      rw [htodo] at hhidden
      have hturn : Worker.advanceScan p c.surroundings = ⟨.waiting, c.session.signal, none⟩ := by
        simp only [Worker.advanceScan, htodo, hlost, hend]
        rfl
      rw [hturn]
      exact ⟨hlast _ (.inl rfl), hhighlighted, hhidden⟩
    · rw [← h.ending_eq] at hend
      have hturn : Worker.advanceScan p c.surroundings
          = ⟨.notifying e.message, c.session.signal, none⟩ := by
        simp only [Worker.advanceScan, htodo, hlost, hend]
        rfl
      rw [hturn]
      exact ⟨hlast _ (.inr ⟨_, rfl⟩), hhighlighted⟩
  | cons a rest =>
    cases a with
    | pull =>
      have hturn : Worker.advanceScan p c.surroundings
        = ⟨.scanning p.skip, c.session.signal, none⟩ := by
        simp only [Worker.advanceScan, htodo]
        rfl
      rw [hturn]
      exact h.skip htodo
    | poll =>
      -- The signal is not set, so clearing it makes no difference.
      have hturn : Worker.advanceScan p c.surroundings = ⟨.scanning p.skip, .unset, none⟩ := by
        simp only [Worker.advanceScan, htodo, hlost, RestartSignal.consume, surroundings, hunset]
        rfl
      rw [hturn]
      exact h.skip htodo
    | flush f =>
      have hskip := h.skip htodo
      rw [Surface.perform] at hskip
      by_cases hspans : f.spans.isEmpty = true
      · have hturn : Worker.advanceScan p c.surroundings
            = ⟨.scanning p.skip, c.session.signal, some (.showProgress f.progress)⟩ := by
          simp only [Worker.advanceScan, htodo, hlost, surroundings, hconnected, hspans]
          rfl
        rw [hturn]
        rw [if_pos hspans] at hskip
        exact hskip
      · have hturn : Worker.advanceScan p c.surroundings
            = ⟨.awaitingBatch p.dropSpans, c.session.signal, some (.applyBatch f.spans)⟩ := by
          simp only [Worker.advanceScan, htodo, hlost, surroundings, hconnected, hspans]
          rfl
        rw [hturn]
        exact h.dropSpans htodo hspans

/-- A worker that goes on stays on track. -/
theorem onTrack_advance {s : Surface} {t : Turn}
    (hedits : ∀ time, c.edits.lastEdit = some time → time ≤ c.now)
    (hconnected : c.session.channel.isSome = true) (hunset : c.session.signal.isSet = false)
    (h : c.OnTrack s c.session.worker)
    (hadvance : c.session.worker.advance? c.surroundings = some t) :
    (c.follow (c.session.apply t)).OnTrack (s.afterAny t.request) t.worker := by
  cases hworker : c.session.worker with
  | waiting =>
    rw [hworker] at hadvance
    simp [Worker.advance?, surroundings, RestartSignal.wait?, hunset] at hadvance
  | settling =>
    rw [hworker] at hadvance
    cases hadvance
    by_cases htyping : c.surroundings.isTyping = true
    · rw [if_pos htyping]
      intro time htime
      have hle : time ≤ c.now := hedits time htime
      show time + c.quietPeriod ≤ c.now + c.quietPeriod
      omega
    · rw [if_neg htyping]
      trivial
  | sleeping wakeTime =>
    rw [hworker] at h hadvance
    simp only [Worker.advance?] at hadvance
    split at hadvance
    · cases hadvance
    · next hawake =>
      cases hadvance
      -- The latest edit is at least a quiet period older than the time at which the worker wakes
      -- up.
      have hquiet : c.surroundings.isTyping = false := by
        show c.edits.isTyping c.now c.quietPeriod = false
        cases hedit : c.edits.lastEdit with
        | none => rw [EditClock.isTyping, hedit, Option.any_none]
        | some time =>
          have hle : time + c.quietPeriod ≤ wakeTime := h time hedit
          have hnow : ¬ c.now < wakeTime := hawake
          rw [EditClock.isTyping, hedit, Option.any_some, decide_eq_false_iff_not]
          omega
      rw [hquiet]
      trivial
  | reading =>
    rw [hworker] at hadvance
    simp only [Worker.advance?, surroundings, hconnected, if_true] at hadvance
    cases hadvance
    trivial
  | resetting text =>
    rw [hworker] at h hadvance
    simp only [Worker.advance?, surroundings, hconnected, if_true] at hadvance
    cases hadvance
    refine ⟨?_, ?_⟩
    · show (s.after .resetStyling).buffer.text = text
      rw [Surface.text_after]
      exact h
    · show (s.after .resetStyling).buffer.classes = _
      rw [Surface.afterAny, Surface.classes_after_resetStyling, Array.size_replicate]
  | scanning p =>
    rw [hworker] at h hadvance
    exact onTrack_advanceScan hworker h hconnected hunset (Option.some.inj hadvance)
  | notifying message =>
    rw [hworker] at h hadvance
    simp only [Worker.advance?, surroundings, hconnected, if_true] at hadvance
    cases hadvance
    obtain ⟨hlast, hhighlighted⟩ := h
    refine ⟨?_, hhighlighted.notify message, Surface.indicatorHidden_after_notify s message⟩
    show PassRecord.next c.lastPass c.session.worker .waiting = _
    rw [hworker]
    exact hlast
  | awaitingText | awaitingReset | awaitingBatch | stopped =>
    rw [hworker] at hadvance
    simp [Worker.advance?, surroundings, hconnected] at hadvance

/-- **Step.** The worker goes on. Either nothing is pending before and after that, or the worker
    clears the signal and is about to begin anew, of which nothing is asked. -/
theorem Invariant.work (h : c.Invariant settings) {t : Turn}
    (hadvance : c.session.worker.advance? c.surroundings = some t) :
    (c.follow (c.session.apply t)).Invariant settings := by
  cases hchannel : c.session.channel with
  | none =>
    have hgone : (c.session.apply t).channel = none := by
      rw [Session.apply, hchannel]
      cases t.request <;> rfl
    refine ⟨h.settings_eq, h.lastEdit_le, ?_, ?_⟩
    · intro next hnext
      cases hgone.symm.trans hnext
    · intro next hnext
      cases hgone.symm.trans hnext
  | some channel =>
    have hconnected : c.session.channel.isSome = true := by rw [hchannel, Option.isSome_some]
    obtain ⟨next, hnext, houtlook, hqueue⟩ := Session.channel_apply hchannel t
    refine ⟨h.settings_eq, h.lastEdit_le, ?_, ?_⟩
    · intro next' hnext'
      obtain rfl : next = next' := Option.some.inj (hnext.symm.trans hnext')
      obtain ⟨hfree, hawaits⟩ := Worker.advance?_awaits hconnected hadvance
      have hfits := h.fits channel hchannel
      show t.worker.Fits next.queue
      rw [hqueue]
      cases hrequest : t.request with
      | none =>
        rw [Option.toList_none, List.append_nil]
        exact hfits.of_not_awaits hfree
      | some r => exact hfits.append hfree (hawaits r hrequest)
    · intro next' hnext' hset hcalm
      obtain rfl : next = next' := Option.some.inj (hnext.symm.trans hnext')
      rw [houtlook]
      rcases Worker.advance?_signal hadvance with hsignal | hsettling
      · -- If nothing is pending after the turn, nothing was before it, since the turn has not
        -- cleared the signal.
        have hcalm' : ¬ c.Pending := by
          rintro (hsignal' | hhand)
          · exact hcalm (.inl ((congrArg RestartSignal.isSet hsignal).trans hsignal'))
          · exact hcalm (.inr hhand)
        have hunset : c.session.signal.isSet = false :=
          Bool.eq_false_iff.mpr fun hsignal' => hcalm' (.inl hsignal')
        exact onTrack_advance h.lastEdit_le hconnected hunset
          (h.onTrack channel hchannel hset hcalm') hadvance
      · show (c.follow (c.session.apply t)).OnTrack _ t.worker
        rw [hsettling]
        trivial

/-! ### A request is handled -/

/-- Whether a worker is on track depends on a part of what there is only. -/
theorem OnTrack.congr {s : Surface} {w : Worker} (h : c.OnTrack s w)
    (hsettings : d.session.settings = c.session.settings) (hedits : d.edits = c.edits)
    (hquiet : d.quietPeriod = c.quietPeriod) (hlast : d.lastPass = c.lastPass) : d.OnTrack s w := by
  unfold OnTrack
  rw [hsettings, hedits, hquiet, hlast]
  exact h

/-- **Step.** A request is handled. If it is waited for, it is the last one, and the worker takes
    over what the outlook has been. -/
theorem Invariant.handle (h : c.Invariant settings) {next : Event × Session}
    (hnext : c.session.handleNext? = some next) : (c.follow next.2).Invariant settings := by
  obtain ⟨surface, r, rest, hchannel, hsession⟩ := Session.handleNext?_eq_some hnext
  have hfits := h.fits _ hchannel
  have htrack := h.onTrack _ hchannel
  rw [hsession]
  refine ⟨h.settings_eq, h.lastEdit_le, ?_, ?_⟩
  · intro channel hchannel'
    cases hchannel'
    by_cases hblocking : r.isBlocking = true
    · obtain ⟨hlast, -⟩ := hfits.1 hblocking
      show Worker.Fits _ rest
      rw [hlast]
      trivial
    · show Worker.Fits (if r.isBlocking then _ else _) rest
      rw [if_neg hblocking]
      exact hfits.2
  · intro channel hchannel' hset hcalm
    cases hchannel'
    have hbefore := htrack hset hcalm
    rw [Channel.outlook_cons] at hbefore
    by_cases hblocking : r.isBlocking = true
    · obtain ⟨hlast, hawaits⟩ := hfits.1 hblocking
      subst hlast
      rw [Channel.outlook_nil] at hbefore ⊢
      show OnTrack _ _ (if r.isBlocking then _ else _)
      rw [if_pos hblocking]
      cases hworker : c.session.worker with
      | awaitingText =>
        -- The copy is the text at this very moment.
        rfl
      | awaitingReset text =>
        rw [hworker] at hbefore
        exact Pass.isSound_ofText hbefore.1 hbefore.2
      | awaitingBatch p =>
        rw [hworker] at hbefore
        exact hbefore
      | waiting | settling | sleeping | reading | resetting | scanning | notifying | stopped =>
        rw [hworker] at hawaits
        cases hawaits
    · show OnTrack _ _ (if r.isBlocking then _ else _)
      rw [if_neg hblocking]
      have hlast : PassRecord.next c.lastPass c.session.worker c.session.worker = c.lastPass := by
        cases c.session.worker <;> rfl
      exact hbefore.congr rfl rfl rfl hlast

/-! ### Hands, time, and the surface -/

/-- A hand that has something to make known. -/
theorem pending_of_set {hand : Nat} {h : Hand} (hmay : c.mayEdit hand = true)
    (hhands : d.hands = c.hands.set hand h) (hbusy : h ≠ .idle) : d.Pending := by
  refine .inr ⟨h, ?_, hbusy⟩
  have hlt : hand < c.hands.length := by
    rcases Nat.lt_or_ge hand c.hands.length with hlt | hge
    · exact hlt
    · rw [mayEdit, List.getElem?_eq_none hge] at hmay
      cases hmay
  rw [hhands]
  exact List.mem_set hlt h

/-- A hand that edits or tells the clock leaves the requests as they are, and has to set the signal
    later on. -/
theorem Invariant.of_pending (h : c.Invariant settings) (hsettings : d.session.settings = settings)
    (hedits : ∀ time, d.edits.lastEdit = some time → time ≤ d.now)
    (hworker : d.session.worker = c.session.worker)
    (hqueue : d.session.channel.map Channel.queue = c.session.channel.map Channel.queue)
    (hpending : d.Pending) : d.Invariant settings := by
  refine ⟨hsettings, hedits, ?_, ?_⟩
  · intro channel hchannel
    rw [hchannel, Option.map_some] at hqueue
    obtain ⟨channel', hchannel', hsame⟩ := Option.map_eq_some_iff.mp hqueue.symm
    rw [hworker, ← hsame]
    exact h.fits channel' hchannel'
  · intro channel _ _ hcalm
    exact absurd hpending hcalm

/-- **Step.** Whatever happens next keeps the invariant. -/
theorem Invariant.move (h : c.Invariant settings) {m : Move} (hmove : c.move? m = some d) :
    d.Invariant settings := by
  cases m with
  | edit hand e =>
    simp only [move?] at hmove
    split at hmove
    · next hmay =>
      cases hmove
      refine h.of_pending h.settings_eq h.lastEdit_le rfl ?_ (pending_of_set hmay rfl (by decide))
      show (c.session.channel.map _).map Channel.queue = _
      rw [Option.map_map]
      rfl
    · cases hmove
  | record hand time =>
    simp only [move?] at hmove
    split at hmove
    · next hmay =>
      cases hmove
      refine h.of_pending h.settings_eq ?_ rfl rfl (pending_of_set hmay.1 rfl (by decide))
      intro last hlast
      obtain rfl : time = last := Option.some.inj hlast
      exact hmay.2
    · cases hmove
  | set hand =>
    simp only [move?] at hmove
    split at hmove
    · cases hmove
      exact h.of_pending h.settings_eq h.lastEdit_le rfl rfl (.inl rfl)
    · cases hmove
  | work =>
    obtain ⟨t, hadvance, rfl⟩ := Option.map_eq_some_iff.mp hmove
    exact h.work hadvance
  | handle =>
    obtain ⟨next, hnext, rfl⟩ := Option.map_eq_some_iff.mp hmove
    exact h.handle hnext
  | passTime duration =>
    cases hmove
    refine ⟨h.settings_eq, ?_, h.fits, ?_⟩
    · intro time htime
      have hle : time ≤ c.now := h.lastEdit_le time htime
      exact Nat.le_add_right_of_le hle
    · -- No outlook depends on the time.
      intro channel hchannel hset hcalm
      have htrack := h.onTrack channel hchannel hset hcalm
      exact htrack.congr rfl rfl rfl rfl
  | drop =>
    cases hmove
    refine ⟨h.settings_eq, h.lastEdit_le, ?_, ?_⟩
    · intro channel hchannel
      cases hchannel
    · intro channel hchannel
      cases hchannel

/-- **Run.** Whatever happens, in whatever order, keeps the invariant. -/
theorem Invariant.run (h : c.Invariant settings) {moves : List Move}
    (hrun : c.run? moves = some d) :
    d.Invariant settings := by
  induction moves generalizing c with
  | nil =>
    cases hrun
    exact h
  | cons m rest ih =>
    obtain ⟨next, hmove, hrest⟩ := Option.bind_eq_some_iff.mp hrun
    exact ih (h.move hmove) hrest

/-! ### At rest -/

/-- Nobody has anything to do: the worker waits for a signal that is not set and that nobody is
    about to set, and all requests have been handled. There has been a signal before. -/
structure AtRest (c : Workplace) (s : Surface) : Prop where
  waiting : c.session.worker = .waiting
  unset : c.session.signal.isSet = false
  idle : ∀ hand ∈ c.hands, hand = .idle
  handled : c.session.channel = some ⟨s, []⟩
  everSet : c.everSet = true

/-- Looks whether everything has come to rest. -/
def isAtRest (c : Workplace) : Bool :=
  match c.session.worker, c.session.channel with
  | .waiting, some ⟨_, []⟩ =>
    !c.session.signal.isSet && c.hands.all (· == .idle) && c.everSet
  | _, _ => false

/-- What the check takes for rest is rest. -/
theorem exists_atRest (h : c.isAtRest = true) : ∃ s, c.AtRest s := by
  unfold isAtRest at h
  split at h
  · next s hworker hchannel =>
    simp only [Bool.and_eq_true, Bool.not_eq_true', List.all_eq_true, beq_iff_eq] at h
    obtain ⟨⟨hunset, hidle⟩, hset⟩ := h
    exact ⟨s, hworker, hunset, hidle, hchannel, hset⟩
  · cases h

/-- Nothing is pending at rest. -/
theorem AtRest.not_pending {s : Surface} (h : c.AtRest s) : ¬ c.Pending := by
  rintro (hsignal | ⟨hand, hmem, hbusy⟩)
  · rw [h.unset] at hsignal
    cases hsignal
  · exact hbusy (h.idle hand hmem)

end Workplace

/-- **No edit is lost.** However edits, signals, the handling of requests, the worker and the clock
    take turns, once everything has come to rest the latest pass was one over the text as it is, and
    nobody stopped it. The text has the styling that a scan of it leaves behind on a buffer without
    styling; if it is not well formed it has none. The progress indicator is hidden. -/
theorem no_edit_is_lost {settings : Settings} {quietPeriod hands : Nat} {buffer : StyledBuffer}
    {moves : List Move} {c : Workplace} {surface : Surface}
    (hrun : (Workplace.start settings quietPeriod hands buffer).run? moves = some c)
    (hrest : c.AtRest surface) :
    let text := surface.buffer.text
    let scan := scanOf settings text
    c.lastPass = some ⟨text, some scan.ending⟩ ∧ scan.ending ≠ .ok .preempted ∧
      surface.buffer.classes = (surface.buffer.resetStyling.applyBatch scan.spans).classes ∧
      ((∃ e, Xml.parse (.ofText text) = .error e) → ∀ i, surface.buffer.classAt i = none) ∧
      surface.indicatorShown = false ∧ surface.buffer.progress = none := by
  intro text scan
  have hinvariant := (Workplace.invariant_start settings quietPeriod hands buffer).run hrun
  -- Nothing is on its way and the worker waits, so what is to come has already come about.
  have htrack := hinvariant.onTrack _ hrest.handled hrest.everSet hrest.not_pending
  rw [Channel.outlook_nil, hrest.waiting] at htrack
  obtain ⟨hlast, hhighlighted, hshown, hprogress⟩ := htrack
  rw [hinvariant.settings_eq] at hlast hhighlighted
  refine ⟨hlast, ?_, hhighlighted, ?_, hshown, hprogress⟩
  · rcases ending_scanOf settings text with hend | ⟨e, hend⟩
    · intro hpreempted
      cases hend.symm.trans hpreempted
    · intro hpreempted
      cases hend.symm.trans hpreempted
  · rintro ⟨e, hparse⟩ i
    exact hhighlighted.classAt (spans_scanOf_of_error hparse) i

/-- A document is loaded, and edited while it is scanned. The scan is stopped, and the worker waits
    until the user has not typed for a while. -/
theorem no_edit_is_lost_during_scan :
    let moves : List Move :=
      [.set 0, .work, .work, .work, .handle, .work, .handle, .work,
        .edit 0 (.insert 2 " b=''"), .record 0 0, .set 0, .work, .work, .passTime 2, .work, .work,
        .handle, .work, .handle, .work, .work, .work, .work, .handle, .handle, .work, .work,
        .handle]
    ∃ c surface, (Workplace.start {} 2 1 (.ofText "<a/>")).run? moves = some c ∧ c.AtRest surface ∧
      let text := surface.buffer.text
      let scan := scanOf {} text
      c.lastPass = some ⟨text, some scan.ending⟩ ∧ scan.ending ≠ .ok .preempted ∧
        surface.buffer.classes = (surface.buffer.resetStyling.applyBatch scan.spans).classes ∧
        ((∃ e, Xml.parse (.ofText text) = .error e) → ∀ i, surface.buffer.classAt i = none) ∧
        surface.indicatorShown = false ∧ surface.buffer.progress = none := by
  intro moves
  -- An edit falls into the first pass, which is given up, and a second pass ends in peace.
  have hruns : ((Workplace.start {} 2 1 (.ofText "<a/>")).run? moves).any Workplace.isAtRest
    = true := by
    decide +kernel
  obtain ⟨c, hrun, hrests⟩ := (Option.any_eq_true _ _).mp hruns
  obtain ⟨surface, hrest⟩ := Workplace.exists_atRest hrests
  exact ⟨c, surface, hrun, hrest, no_edit_is_lost hrun hrest⟩

end XmlHighlight
