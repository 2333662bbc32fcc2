import XmlHighlight.Proofs.Interleaving
import XmlHighlight.Proofs.Progress

/-!
# Pass requests — what is asked for in one pass

A pass over a document asks for the text, for the styling to be reset, and for what a scan of the
text hands out, in this order. While it goes on, the requests that have been handled, those that are
on their way and those that the worker is still going to send make up exactly this list.

* `passRequests`, `passEvents` — what is asked for, and what is done about it;
* `passRequests_ends`, `endsPass_eq_isEmpty` — the end of a pass can be told from what is done;
* `Surface.foldl_after_passRequests` — what becomes of a surface;
* `Worker.Owes` — what a worker is still going to send;
* `Session.OnCourse` — the invariant of a pass, with `Session.OnCourse.apply` and
  `Session.OnCourse.handleNext?` as its steps.
-/

namespace XmlHighlight

/-! ### The requests of a pass -/

/-- What has been done when a request has been handled. -/
def Request.event : Request → Event
  | .readText => .textRead
  | .resetStyling => .stylingReset
  | .applyBatch spans => .batchApplied spans.length
  | .showProgress p => .progressShown p
  | .notify message => .notified message

/-- The event of a request does not depend on the surface. -/
theorem Surface.event_handle (s : Surface) (r : Request) : (s.handle r).2 = r.event := by
  cases r <;> rfl

/-- What is asked for when spans are handed out. Nothing is to be painted if there are none. -/
def Flush.requests (f : Flush) : List Request :=
  (if f.spans.isEmpty then [] else [.applyBatch f.spans]) ++ [.showProgress f.progress]

/-- What is asked for at the end of a scan: a failure is made known. -/
def endRequests : Ending → List Request
  | .ok _ => []
  | .error e => [.notify e.message]

/-- What is asked for in a scan that is carried out. -/
def scanRequests (flushes : List Flush) (ending : Ending) : List Request :=
  flushes.flatMap Flush.requests ++ endRequests ending

@[simp] theorem scanRequests_nil (ending : Ending) : scanRequests [] ending = endRequests ending :=
  rfl

@[simp] theorem scanRequests_cons (f : Flush) (rest : List Flush) (ending : Ending) :
    scanRequests (f :: rest) ending = f.requests ++ scanRequests rest ending := by
  rw [scanRequests, List.flatMap_cons, List.append_assoc]
  rfl

/-- What is asked for in a pass over a text. -/
def passRequests (settings : Settings) (text : String) : List Request :=
  .readText :: .resetStyling ::
    scanRequests (scanOf settings text).flushes.toList (scanOf settings text).ending

/-- What is done in a pass over a text: the text is read, the styling is reset, spans are painted,
    if there are any, and progress is shown for every hand-out of a scan, and a failure is made
    known. -/
def passEvents (settings : Settings) (text : String) : List Event :=
  [.textRead, .stylingReset] ++
    (scanOf settings text).flushes.toList.flatMap (fun f =>
      (if f.spans.length = 0 then [] else [.batchApplied f.spans.length])
        ++ [.progressShown f.progress]) ++
    match (scanOf settings text).ending with
    | .ok _ => []
    | .error e => [.notified e.message]

/-- A flush shows its spans, if it has any, and then its progress. -/
theorem map_event_requests (f : Flush) :
    f.requests.map Request.event
      = (if f.spans.length = 0 then [] else [.batchApplied f.spans.length])
      ++ [.progressShown f.progress] := by
  obtain ⟨progress, spans⟩ := f
  cases spans <;> rfl

/-- The requests of a pass show the events of the pass. -/
theorem map_event_passRequests (settings : Settings) (text : String) :
    (passRequests settings text).map Request.event = passEvents settings text := by
  rw [passRequests, scanRequests, passEvents]
  simp only [List.map_cons, List.map_append, List.map_flatMap, map_event_requests]
  cases (scanOf settings text).ending <;> rfl

/-! ### The end of a pass -/

/-- The last thing that is asked for when spans are handed out is that progress be shown. -/
theorem requests_eq (f : Flush) :
    ∃ batch, f.requests = batch ++ [.showProgress f.progress] ∧ ∀ r ∈ batch,
    r.event.endsPass = false := by
  refine ⟨_, rfl, fun r hr => ?_⟩
  split at hr
  · cases hr
  · rw [List.mem_singleton.mp hr]
    rfl

/-- A flush that is not the last does not end the pass. -/
theorem endsPass_requests {f : Flush} (h : f.progress.isComplete = false) :
    ∀ r ∈ f.requests, r.event.endsPass = false := by
  obtain ⟨batch, hrequests, hbatch⟩ := requests_eq f
  intro r hr
  rw [hrequests] at hr
  rcases List.mem_append.mp hr with hr | hr
  · exact hbatch r hr
  · rw [List.mem_singleton.mp hr]
    exact h

/-- Why a scan has failed, if it has. -/
def failureMessage? : Ending → Option String
  | .ok _ => none
  | .error e => some e.message

/-- What is made known by an event, if anything. -/
def Event.message? : Event → Option String
  | .notified message => some message
  | _ => none

/-- Only the last thing that is done in a pass is one that ends it, and tells whether a scan has
    failed. -/
theorem passRequests_ends (settings : Settings) (text : String) :
    ∃ init last, passRequests settings text = init ++ [last] ∧ last.event.endsPass = true ∧
      last.event.message? = failureMessage? (scanOf settings text).ending ∧
      ∀ r ∈ init, r.event.endsPass = false := by
  have hconcludes := ending_scanOf settings text
  have hclimbs := (climbs_documentPlan settings (.ofText text) (.build (.ofText text))).run never
  obtain ⟨early, hclimb, hreport⟩ := hclimbs
  -- All hand-outs of a scan that fails, and all but the last of one that completes, are partial.
  have hpartial : ∀ flushes : List Flush, percents flushes = early →
      ∀ r ∈ .readText :: .resetStyling :: flushes.flatMap Flush.requests,
      r.event.endsPass = false := by
    intro flushes hflushes r hr
    rcases List.mem_cons.mp hr with rfl | hr
    · rfl
    rcases List.mem_cons.mp hr with rfl | hr
    · rfl
    obtain ⟨f, hf, hrequest⟩ := List.mem_flatMap.mp hr
    refine endsPass_requests ?_ r hrequest
    have hpercent : f.progress.percent ≤ 99 := by
      refine hclimb.2 _ ?_
      rw [← hflushes]
      exact List.mem_map_of_mem hf
    rw [Progress.isComplete, beq_eq_false_iff_ne]
    omega
  rcases hconcludes with hcompleted | ⟨e, hfailed⟩
  · obtain ⟨hne, -⟩ | ⟨-, hfigures⟩ := hreport
    · exact absurd hcompleted hne
    · obtain ⟨flushes, final, hflushes, hpercents, hfinal⟩ := List.map_eq_append_iff.mp hfigures
      obtain ⟨f, rfl, hpercent⟩ := List.map_eq_singleton_iff.mp hfinal
      obtain ⟨batch, hrequests, hbatch⟩ := requests_eq f
      have hend : (scanOf settings text).ending = .ok .completed := hcompleted
      refine ⟨.readText :: .resetStyling :: flushes.flatMap Flush.requests ++ batch,
        .showProgress f.progress, ?_, ?_, ?_, ?_⟩
      · have hscan : (scanOf settings text).flushes.toList = flushes ++ [f] := hflushes
        rw [passRequests, hscan, hend, scanRequests]
        simp [hrequests, endRequests]
      · show f.progress.isComplete = true
        rw [Progress.isComplete, hpercent]
        rfl
      · rw [hend]
        rfl
      · intro r hr
        rcases List.mem_append.mp hr with hr | hr
        · exact hpartial flushes hpercents r hr
        · exact hbatch r hr
  · obtain ⟨-, hfigures⟩ | ⟨hcompleted, -⟩ := hreport
    · refine ⟨_, .notify e.message, ?_, rfl, ?_, hpartial _ hfigures⟩
      · rw [passRequests, scanRequests, hfailed]
        rfl
      · rw [hfailed]
        rfl
    · cases hcompleted.symm.trans hfailed

/-- A request of a pass ends it if nothing comes after it. -/
theorem endsPass_eq_isEmpty {settings : Settings} {text : String} {before after : List Request}
    {r : Request} (h : before ++ r :: after = passRequests settings text) :
    r.event.endsPass = after.isEmpty := by
  obtain ⟨init, last, hall, hlast, -, hinit⟩ := passRequests_ends settings text
  rw [hall] at h
  rcases List.eq_nil_or_concat after with rfl | ⟨more, final, rfl⟩
  · rw [(List.cons.inj (List.append_inj' h rfl).2).1]
    exact hlast
  · rw [List.concat_eq_append, ← List.cons_append, ← List.append_assoc] at h
    have hmem : r ∈ init := by
      rw [← (List.append_inj' h rfl).1]
      exact List.mem_append_right _ List.mem_cons_self
    rw [hinit r hmem]
    simp

/-! ### The surface -/

/-- What a hand-out asks for makes of a surface what the hand-out does. -/
theorem Surface.foldl_after_requests (s : Surface) (f : Flush) :
    f.requests.foldl after s = s.perform (.flush f) := by
  obtain ⟨progress, spans⟩ := f
  cases spans <;> rfl

/-- The requests of a scan do to the surface what its actions do, and then end the pass. -/
theorem Surface.foldl_after_scanRequests (s : Surface) (actions : List Action) (ending : Ending) :
    (scanRequests (flushesOf actions) ending).foldl after s
      = (endRequests ending).foldl after (s.performAll actions) := by
  induction actions generalizing s with
  | nil => rfl
  | cons a rest ih =>
    cases a with
    | pull => exact ih s
    | poll => exact ih s
    | flush f =>
      rw [flushesOf_flush, scanRequests_cons, List.foldl_append, foldl_after_requests, ih]
      rfl

@[simp] theorem Surface.text_foldl_after (s : Surface) (requests : List Request) :
    (requests.foldl after s).buffer.text = s.buffer.text := by
  induction requests generalizing s with
  | nil => rfl
  | cons r rest ih => rw [List.foldl_cons, ih, text_after]

theorem Surface.classes_foldl_after_endRequests (s : Surface) (ending : Ending) :
    ((endRequests ending).foldl after s).buffer.classes = s.buffer.classes := by
  cases ending <;> rfl

/-- What becomes of a surface in a pass: its styling is that of a single batch of all spans that a
    scan hands out, on a surface without styling. -/
theorem Surface.foldl_after_passRequests (s : Surface) (settings : Settings) (text : String) :
    ((passRequests settings text).foldl after s).buffer.classes
      = (s.buffer.resetStyling.applyBatch (scanOf settings text).spans).classes := by
  have hflushes : (scanOf settings text).flushes.toList = flushesOf _ := flushes_run_never _
  rw [passRequests, List.foldl_cons, List.foldl_cons, hflushes, foldl_after_scanRequests,
    classes_foldl_after_endRequests, classes_performAll, Report.spans, hflushes]
  rfl

/-! ### What a worker is going to send -/

/-- What is still going to be asked for in a scan that nobody stops. -/
structure Pass.Owes (p : Pass) (owed : List Request) : Prop where
  lost_eq : p.lost = false
  concludes : p.ending = .ok .completed ∨ ∃ e, p.ending = .error e
  owed_eq : owed = scanRequests (flushesOf p.todo) p.ending

/-- What a worker is still going to send in a pass over a text. It finds the user not typing, so
    that it never sleeps. -/
def Worker.Owes (settings : Settings) (text : String) (signal : RestartSignal)
    (owed : List Request) :
    Worker → Prop
  | .waiting => owed = if signal.isSet then passRequests settings text else []
  | .settling => owed = passRequests settings text
  | .sleeping _ => False
  | .reading => owed = passRequests settings text
  | .awaitingText => owed = (passRequests settings text).drop 1
  | .resetting copy => copy = text ∧ owed = (passRequests settings text).drop 1
  | .awaitingReset copy => copy = text ∧ owed = (passRequests settings text).drop 2
  | .scanning p => p.Owes owed
  | .awaitingBatch p => p.Owes owed
  | .notifying message => owed = [.notify message]
  | .stopped => False

variable {settings : Settings} {text : String} {owed : List Request}

/-- A scan that begins owes all requests of the pass but the first two. -/
theorem Pass.owes_ofText (settings : Settings) (text : String) :
    (ofText settings text).Owes ((passRequests settings text).drop 2) := by
  have hflushes : (scanOf settings text).flushes.toList = flushesOf _ := flushes_run_never _
  have hending : (scanOf settings text).ending = _ := ending_run_never _
  refine ⟨rfl, ?_, ?_⟩
  · rw [ofText, ← hending]
    exact ending_scanOf settings text
  · rw [passRequests, hflushes, hending]
    rfl

/-- **Step.** A scan that nobody stops sends what comes first among what it owes, if anything, and
    owes the rest after that. -/
theorem Worker.owes_advanceScan {p : Pass} {around : Surroundings} (h : p.Owes owed)
    (hconnected : around.connected = true) (hunset : around.signal.isSet = false) :
    let t := advanceScan p around
    t.signal.isSet = false ∧
      ∃ rest, owed = t.request.toList ++ rest ∧ t.worker.Owes settings text t.signal rest := by
  obtain ⟨copy, todo, ending, lost⟩ := p
  obtain ⟨rfl, hconcludes, rfl⟩ := h
  obtain ⟨⟨isSet⟩, connected, now, edits, quietPeriod⟩ := around
  obtain rfl : connected = true := hconnected
  obtain rfl : isSet = false := hunset
  -- A scan that has nothing left to do ends the pass: completed quietly, failed with a message.
  cases todo with
  | nil =>
    rcases hconcludes with rfl | ⟨e, rfl⟩
    · exact ⟨rfl, [], rfl, rfl⟩
    · exact ⟨rfl, [.notify e.message], rfl, rfl⟩
  | cons a rest =>
    cases a with
    | pull => exact ⟨rfl, _, rfl, rfl, hconcludes, rfl⟩
    | poll => exact ⟨rfl, _, rfl, rfl, hconcludes, rfl⟩
    | flush f =>
      obtain ⟨progress, spans⟩ := f
      rw [flushesOf_flush, scanRequests_cons]
      cases spans with
      | nil => exact ⟨rfl, _, rfl, rfl, hconcludes, rfl⟩
      | cons span more =>
        -- A flush with spans takes two requests: the batch now, and the report once it is applied.
        refine ⟨rfl, scanRequests (⟨progress, []⟩ :: flushesOf rest) ending, ?_, rfl, hconcludes,
          rfl⟩
        rw [scanRequests_cons]
        rfl

/-- **Step.** A worker that goes on while nobody types sends what comes first among what it owes, if
    anything, and owes the rest after that. The signal is not set then. -/
theorem Worker.owes_advance? {w : Worker} {around : Surroundings} {t : Turn}
    (h : w.Owes settings text around.signal owed) (hconnected : around.connected = true)
    (hquiet : around.isTyping = false) (hunset : around.signal.isSet = true → w = .waiting)
    (hadvance : w.advance? around = some t) :
    t.signal.isSet = false ∧
      ∃ rest, owed = t.request.toList ++ rest ∧ t.worker.Owes settings text t.signal rest := by
  have hclear : w ≠ .waiting → around.signal.isSet = false := by
    intro hne
    exact Bool.eq_false_iff.mpr fun hset => hne (hunset hset)
  cases w with
  | waiting =>
    obtain ⟨signal, hwait, rfl⟩ := Option.map_eq_some_iff.mp hadvance
    unfold RestartSignal.wait? at hwait
    split at hwait
    · next hset =>
      cases hwait
      exact ⟨rfl, _, rfl, by simpa [Owes, hset] using h⟩
    · cases hwait
  | settling =>
    simp only [advance?, hquiet] at hadvance
    cases hadvance
    exact ⟨hclear (by simp), _, rfl, h⟩
  | reading =>
    simp only [advance?, hconnected, if_true] at hadvance
    cases hadvance
    refine ⟨hclear (by simp), _, ?_, rfl⟩
    exact h
  | resetting copy =>
    simp only [advance?, hconnected, if_true] at hadvance
    cases hadvance
    obtain ⟨hcopy, rfl⟩ := h
    exact ⟨hclear (by simp), _, rfl, hcopy, rfl⟩
  | scanning p =>
    have hscan : advanceScan p around = t := Option.some.inj hadvance
    rw [← hscan]
    exact owes_advanceScan h hconnected (hclear (by simp))
  | notifying message =>
    simp only [advance?, hconnected, if_true] at hadvance
    cases hadvance
    refine ⟨hclear (by simp), [], h, ?_⟩
    simp [Owes, hclear]
  | awaitingText | awaitingReset | awaitingBatch => simp [advance?, hconnected] at hadvance
  | sleeping => exact absurd h id
  | stopped => exact absurd h id

/-- A worker after a request has been handled, while the document had the given text. -/
def Worker.answered (settings : Settings) (text : String) (r : Request) (w : Worker) : Worker :=
  if r.isBlocking then w.receive settings text else w

/-- An answer does not change what a worker owes. -/
theorem Worker.Owes.answered {w : Worker} {signal : RestartSignal}
    (h : w.Owes settings text signal owed) (r : Request) :
    (w.answered settings text r).Owes settings text signal owed := by
  unfold Worker.answered
  split
  · cases w with
    | awaitingText => exact ⟨rfl, h⟩
    | awaitingReset copy =>
      obtain ⟨rfl, rfl⟩ := h
      exact Pass.owes_ofText settings copy
    | awaitingBatch p => exact h
    | waiting | settling | sleeping | reading | resetting | scanning | notifying | stopped =>
        exact h
  · exact h

/-- The requests behind one that has been handled fit the worker. -/
theorem Worker.Fits.answered {w : Worker} {r : Request} {rest : List Request}
    (h : w.Fits (r :: rest)) :
    (w.answered settings text r).Fits rest := by
  unfold Worker.answered
  split
  · next hblocking =>
    rw [(h.1 hblocking).1]
    trivial
  · exact h.2

/-- A worker that waits after a request has been handled has been waiting for another one. -/
theorem Worker.Fits.awaits_of_answered {w : Worker} {r r' : Request} {rest : List Request}
    (h : w.Fits (r :: rest)) (hawaits : (w.answered settings text r).Awaits r') :
    ¬ r.isBlocking = true ∧ w.Awaits r' := by
  unfold Worker.answered at hawaits
  split at hawaits
  · next hblocking =>
    have hbefore := (h.1 hblocking).2
    cases w with
    | awaitingText | awaitingReset | awaitingBatch => exact absurd hawaits id
    | waiting | settling | sleeping | reading | resetting | scanning | notifying | stopped =>
      exact absurd hbefore id
  · next hfree => exact ⟨hfree, hawaits⟩

/-- Only requests that have to be waited for are waited for. -/
theorem Worker.Awaits.isBlocking {w : Worker} {r : Request} (h : w.Awaits r) :
    r.isBlocking = true := by
  cases r with
  | readText | resetStyling | applyBatch => rfl
  | showProgress | notify => cases w <;> exact absurd h id

/-- A worker that begins to wait has just sent what it waits for. -/
theorem Worker.sends_of_awaits {w : Worker} {around : Surroundings} {t : Turn} {r : Request}
    (hconnected : around.connected = true) (hadvance : w.advance? around = some t)
    (h : t.worker.Awaits r) : ∃ sent, t.request = some sent ∧ t.worker.Awaits sent := by
  cases w with
  | waiting =>
    obtain ⟨signal, -, rfl⟩ := Option.map_eq_some_iff.mp hadvance
    exact absurd h id
  | settling =>
    cases hadvance
    split at h <;> exact absurd h id
  | sleeping wakeTime =>
    simp only [advance?] at hadvance
    split at hadvance
    · cases hadvance
    · cases hadvance
      split at h <;> exact absurd h id
  | reading | resetting | notifying =>
    simp only [advance?, hconnected, if_true] at hadvance
    cases hadvance
    first
    | exact ⟨_, rfl, trivial⟩
    | exact absurd h id
  | scanning p =>
    have hscan : advanceScan p around = t := Option.some.inj hadvance
    unfold advanceScan at hscan
    -- Only when spans are to be painted is there something to wait for.
    split at hscan
    · split at hscan
      · subst hscan
        exact absurd h id
      · split at hscan <;> subst hscan <;> exact absurd h id
    · subst hscan
      exact absurd h id
    · split at hscan
      · subst hscan
        exact absurd h id
      · subst hscan
        dsimp only at h
        split at h <;> exact absurd h id
    · split at hscan
      · subst hscan
        exact absurd h id
      · split at hscan
        · subst hscan
          exact absurd h id
        · split at hscan
          · subst hscan
            exact absurd h id
          · subst hscan
            exact ⟨_, rfl, trivial⟩
  | awaitingText | awaitingReset | awaitingBatch => simp [advance?, hconnected] at hadvance
  | stopped => cases hadvance

/-! ### A pass under way -/

/-- A pass over the text of a surface is under way, of which some requests have been handled. The
    surface has become what these make of it. They, the requests on their way and those that the
    worker is still going to send are the requests of the pass. If the worker waits for a request,
    that is on its way. -/
structure Session.OnCourse (settings : Settings) (surface : Surface) (handled : List Request)
    (s : Session) : Prop where
  settings_eq : s.settings = settings
  unset : s.signal.isSet = true → s.worker = .waiting
  course : ∃ queue owed, s.channel = some ⟨handled.foldl Surface.after surface, queue⟩ ∧
    s.worker.Fits queue ∧ ((∃ r, s.worker.Awaits r) → ∃ r ∈ queue, s.worker.Awaits r) ∧
    s.worker.Owes settings surface.buffer.text s.signal owed ∧
    handled ++ queue ++ owed = passRequests settings surface.buffer.text

namespace Session

variable {surface : Surface} {handled : List Request} {s : Session}

/-- The signal has been set for a worker that waits for it. -/
theorem onCourse_notice (settings : Settings) (surface : Surface) :
    (notice ⟨settings, some ⟨surface, []⟩, .unset, .waiting⟩).OnCourse settings surface [] :=
  ⟨rfl, fun _ => rfl, [], _, rfl, trivial, fun ⟨_, h⟩ => absurd h id, rfl, rfl⟩

/-- **Step.** The worker goes on while nobody types. -/
theorem OnCourse.apply (h : s.OnCourse settings surface handled) {around : Surroundings} {t : Turn}
    (hsignal : around.signal = s.signal) (hconnected : around.connected = true)
    (hquiet : around.isTyping = false) (hadvance : s.worker.advance? around = some t) :
    (s.apply t).OnCourse settings surface handled := by
  obtain ⟨hsettings, hunset, queue, owed, hchannel, hfits, -, howes, hall⟩ := h
  rw [← hsignal] at howes hunset
  obtain ⟨hclear, rest, howed, howes⟩ :=
    Worker.owes_advance? howes hconnected hquiet hunset hadvance
  -- A worker that takes a turn is not blocked, so nothing in the queue is awaited yet.
  obtain ⟨hfree, hawaits⟩ := Worker.advance?_awaits hconnected hadvance
  refine ⟨hsettings, ?_, queue ++ t.request.toList, rest, ?_, ?_, ?_, howes, ?_⟩
  · intro hset
    exact absurd hset (Bool.eq_false_iff.mp hclear)
  · rw [Session.apply, hchannel]
    cases t.request with
    | none => rw [Option.toList_none, List.append_nil]
    | some r => rfl
  · show t.worker.Fits _
    cases hrequest : t.request with
    | none =>
      rw [Option.toList_none, List.append_nil]
      exact hfits.of_not_awaits hfree
    | some r => exact hfits.append hfree (hawaits r hrequest)
  · rintro ⟨r, hr⟩
    obtain ⟨sent, hsent, hr⟩ := Worker.sends_of_awaits hconnected hadvance hr
    refine ⟨sent, ?_, hr⟩
    rw [hsent]
    exact List.mem_append_right _ List.mem_cons_self
  · rw [← hall, howed]
    simp only [List.append_assoc]

/-- What a handled request does to a session. -/
theorem handleNext?_of_cons {current : Surface} {r : Request} {rest : List Request}
    (h : s.channel = some ⟨current, r :: rest⟩) :
    s.handleNext? = some (r.event, { s with
      channel := some ⟨current.after r, rest⟩
      worker := s.worker.answered s.settings current.buffer.text r }) := by
  rw [Session.handleNext?, h, Worker.answered, ← Surface.text_after current r]
  simp only [Surface.event_handle]
  rfl

/-- **Step.** A request is handled. -/
theorem OnCourse.handleNext? (h : s.OnCourse settings surface handled) {next : Event × Session}
    (hnext : s.handleNext? = some next) :
    ∃ r, next.1 = r.event ∧ next.2.OnCourse settings surface (handled ++ [r]) := by
  obtain ⟨hsettings, hunset, queue, owed, hchannel, hfits, hawaited, howes, hall⟩ := h
  cases queue with
  | nil =>
    rw [Session.handleNext?, hchannel] at hnext
    cases hnext
  | cons r rest =>
    rw [handleNext?_of_cons hchannel, Surface.text_foldl_after, hsettings] at hnext
    cases hnext
    refine ⟨r, rfl, rfl, ?_, rest, owed, ?_, hfits.answered, ?_, howes.answered r, ?_⟩
    · intro hset
      show Worker.answered _ _ _ _ = Worker.waiting
      rw [hunset hset]
      exact ite_self _
    · rw [List.foldl_append]
      rfl
    · -- A worker that still waits was not answered by `r`, so its request stands behind `r`.
      rintro ⟨r', hr'⟩
      obtain ⟨hfree, hawaits⟩ := hfits.awaits_of_answered hr'
      obtain ⟨r', hr', hawaits⟩ := hawaited ⟨_, hawaits⟩
      rcases List.mem_cons.mp hr' with rfl | hr'
      · exact absurd hawaits.isBlocking hfree
      · refine ⟨r', hr', ?_⟩
        rwa [Worker.answered, if_neg hfree]
    · rw [← hall]
      simp only [List.append_assoc, List.cons_append, List.nil_append]

/-- As long as a pass is not over, the worker can go on or a request can be handled. -/
theorem OnCourse.goes_on (h : s.OnCourse settings surface handled) {around : Surroundings}
    (hsignal : around.signal = s.signal) (hconnected : around.connected = true)
    (hpart : handled ≠ passRequests settings surface.buffer.text) :
    (s.worker.advance? around).isSome = true ∨ s.handleNext?.isSome = true := by
  obtain ⟨-, hunset, queue, owed, hchannel, -, hawaited, howes, hall⟩ := h
  cases queue with
  | cons r rest =>
    refine .inr ?_
    rw [Session.handleNext?, hchannel]
    rfl
  | nil =>
    refine .inl ?_
    -- With an empty queue no request can be awaited, since an awaited one is in the queue.
    have hwaits : ∀ r, ¬ s.worker.Awaits r := fun r hr => by
      obtain ⟨r', hr', -⟩ := hawaited ⟨r, hr⟩
      cases hr'
    have howed : owed ≠ [] := by
      rintro rfl
      exact hpart (by simpa using hall)
    cases hworker : s.worker with
    | waiting =>
      rw [hworker] at howes
      -- A waiting worker with the signal clear owes nothing, and then the pass would be over.
      cases hset : s.signal.isSet with
      | false => exact absurd (by simpa [Worker.Owes, hset] using howes) howed
      | true => simp [Worker.advance?, hsignal, RestartSignal.wait?, hset]
    | awaitingText => exact absurd (by rw [hworker]; trivial) (hwaits .readText)
    | awaitingReset copy => exact absurd (by rw [hworker]; trivial) (hwaits .resetStyling)
    | awaitingBatch p => exact absurd (by rw [hworker]; trivial) (hwaits (.applyBatch []))
    | reading | resetting | notifying => simp [Worker.advance?, hconnected]
    | settling | scanning => rfl
    | sleeping | stopped =>
      rw [hworker] at howes
      exact absurd howes id

end Session

end XmlHighlight
