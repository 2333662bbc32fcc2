import XmlHighlight.Proofs.PassRequests

/-!
# Pass runs — one pass in every order of turns

The signal is set once, and after that the worker goes on, requests are handled and time passes, in
any order.

* `Move.IsQuiet`, `Workplace.events` — what happens while nobody edits, and what is done for
  requests;
* `Worker.toGo`, `Session.toGo` — a bound on what is left to do in a pass, which every turn lowers;
* `Workplace.OnCourse` — the invariant, with `Workplace.OnCourse.move` as the step and
  `Workplace.OnCourse.run` as the run;
* `Session.OnCourse.finished` — the surface when all requests have been handled.
-/

namespace XmlHighlight

/-! ### What happens while nobody edits -/

/-- The worker or the host goes on, or time passes. -/
def Move.IsQuiet : Move → Prop
  | .work => True
  | .handle => True
  | .passTime _ => True
  | .edit _ _ => False
  | .record _ _ => False
  | .set _ => False
  | .drop => False

/-- The worker or the host goes on. -/
def Move.isTurn : Move → Bool
  | .work => true
  | .handle => true
  | _ => false

namespace Workplace

/-- What is done for a request, if one is handled. -/
def event? (c : Workplace) : Move → Option Event
  | .handle => c.session.handleNext?.map (·.1)
  | _ => none

/-- What is done for requests while one thing happens after the other. -/
def events (c : Workplace) : List Move → List Event
  | [] => []
  | m :: rest => (c.event? m).toList ++ ((c.move? m).map fun d => d.events rest).getD []

end Workplace

/-! ### How much is left to do -/

/-- A bound on the turns that an action takes. Spans that are handed out have to be painted
    first. -/
def Action.weight : Action → Nat
  | .pull => 1
  | .poll => 1
  | .flush f => if f.spans.isEmpty then 1 else 3

/-- A bound on the turns that the rest of a scan takes. -/
def Pass.weight (p : Pass) : Nat := p.todo.foldr (fun action turns => action.weight + turns) 0

/-- A bound on the turns in which a worker has part before it waits for the signal, in a pass over a
    text. -/
def Worker.toGo (settings : Settings) (text : String) (signal : RestartSignal) : Worker → Nat
  | .waiting => if signal.isSet then (Pass.ofText settings text).weight + 8 else 0
  | .settling => (Pass.ofText settings text).weight + 7
  | .sleeping _ => 0
  | .reading => (Pass.ofText settings text).weight + 6
  | .awaitingText => (Pass.ofText settings text).weight + 5
  | .resetting _ => (Pass.ofText settings text).weight + 4
  | .awaitingReset _ => (Pass.ofText settings text).weight + 3
  | .scanning p => p.weight + 2
  | .awaitingBatch p => p.weight + 3
  | .notifying _ => 1
  | .stopped => 0

variable {settings : Settings} {text : String} {owed : List Request}

/-- A scan that goes on has less to go, whatever it does next. -/
theorem Worker.toGo_advanceScan {p : Pass} {around : Surroundings} (h : p.Owes owed)
    (hconnected : around.connected = true) (hunset : around.signal.isSet = false) :
    (advanceScan p around).worker.toGo settings text (advanceScan p around).signal
      < p.weight + 2 := by
  obtain ⟨copy, todo, ending, lost⟩ := p
  obtain ⟨rfl, hconcludes, -⟩ := h
  obtain ⟨⟨isSet⟩, connected, now, edits, quietPeriod⟩ := around
  obtain rfl : connected = true := hconnected
  obtain rfl : isSet = false := hunset
  cases todo with
  | nil =>
    rcases hconcludes with rfl | ⟨e, rfl⟩
    · simp [advanceScan, toGo]
    · simp [advanceScan, toGo]
  | cons a rest =>
    cases a with
    | pull => simp [advanceScan, toGo, Pass.skip, Pass.weight, Action.weight]
    | poll => simp [advanceScan, toGo, Pass.skip, Pass.weight, Action.weight, RestartSignal.consume]
    | flush f =>
      -- The spans are sent first and weigh for themselves; the report of the flush is left.
      obtain ⟨progress, spans⟩ := f
      cases spans with
      | nil => simp [advanceScan, toGo, Pass.skip, Pass.weight, Action.weight]
      | cons span more =>
        simp [advanceScan, toGo, Pass.dropSpans, Pass.weight, Action.weight]
        omega

/-- **Step.** A worker that goes on has less to do. -/
theorem Worker.toGo_advance? {w : Worker} {around : Surroundings} {t : Turn}
    (h : w.Owes settings text around.signal owed) (hconnected : around.connected = true)
    (hquiet : around.isTyping = false) (hunset : around.signal.isSet = true → w = .waiting)
    (hadvance : w.advance? around = some t) :
    t.worker.toGo settings text t.signal < w.toGo settings text around.signal := by
  cases w with
  | waiting =>
    obtain ⟨signal, hwait, rfl⟩ := Option.map_eq_some_iff.mp hadvance
    unfold RestartSignal.wait? at hwait
    split at hwait
    · next hset => simp [toGo, hset]
    · cases hwait
  | settling =>
    simp only [advance?, hquiet] at hadvance
    cases hadvance
    simp [toGo]
  | reading | resetting =>
    simp only [advance?, hconnected, if_true] at hadvance
    cases hadvance
    simp [toGo]
  | notifying message =>
    have hclear : around.signal.isSet = false :=
      Bool.eq_false_iff.mpr fun hset => by cases hunset hset
    simp only [advance?, hconnected, if_true] at hadvance
    cases hadvance
    simp [toGo, hclear]
  -- The signal is clear during the scan, so no poll can stop it.
  | scanning p =>
    have hclear : around.signal.isSet = false :=
      Bool.eq_false_iff.mpr fun hset => by cases hunset hset
    have hscan : advanceScan p around = t := Option.some.inj hadvance
    rw [← hscan]
    exact toGo_advanceScan h hconnected hclear
  | awaitingText | awaitingReset | awaitingBatch => simp [advance?, hconnected] at hadvance
  | sleeping => exact absurd h id
  | stopped => exact absurd h id

/-- An answer to a worker leaves it no more to do, and less if it has waited for that. -/
theorem Worker.toGo_answered {w : Worker} {signal : RestartSignal}
    (h : w.Owes settings text signal owed)
    (r : Request) :
    (w.answered settings text r).toGo settings text signal ≤ w.toGo settings text signal := by
  unfold Worker.answered
  split
  · cases w with
    | awaitingText | awaitingBatch => simp [receive, toGo]
    | awaitingReset copy =>
      obtain ⟨rfl, -⟩ := h
      simp [receive, toGo]
    | waiting | settling | sleeping | reading | resetting | scanning | notifying | stopped =>
      exact Nat.le_refl _
  · exact Nat.le_refl _

/-- A bound on the turns that a pass still takes. A request is sent in one turn and handled in
    another. -/
def Session.toGo (text : String) (s : Session) : Nat :=
  2 * s.worker.toGo s.settings text s.signal + ((s.channel.map (·.queue.length)).getD 0)

namespace Session

variable {surface : Surface} {handled : List Request} {s : Session}

/-- What a session has to go while its host is there. -/
theorem toGo_eq {now : Surface} {queue : List Request} (hsettings : s.settings = settings)
    (hchannel : s.channel = some ⟨now, queue⟩) (text : String) :
    s.toGo text = 2 * s.worker.toGo settings text s.signal + queue.length := by
  rw [toGo, hchannel, hsettings]
  rfl

/-- **Step.** The worker goes on. -/
theorem OnCourse.toGo_apply (h : s.OnCourse settings surface handled) {around : Surroundings}
    {t : Turn}
    (hsignal : around.signal = s.signal) (hconnected : around.connected = true)
    (hquiet : around.isTyping = false) (hadvance : s.worker.advance? around = some t) :
    (s.apply t).toGo surface.buffer.text < s.toGo surface.buffer.text := by
  obtain ⟨hsettings, hunset, queue, owed, hchannel, -, -, howes, -⟩ := h
  rw [← hsignal] at howes hunset
  have hless := Worker.toGo_advance? howes hconnected hquiet hunset hadvance
  obtain ⟨⟨now, sent⟩, hnext, -, hqueue⟩ := Session.channel_apply hchannel t
  have hlength : sent.length ≤ queue.length + 1 := by
    rw [show sent = queue ++ t.request.toList from hqueue]
    cases t.request <;> simp
  have hsettings' : (s.apply t).settings = settings := hsettings
  have hworker : (s.apply t).worker.toGo settings surface.buffer.text (s.apply t).signal
      = t.worker.toGo settings surface.buffer.text t.signal := rfl
  rw [toGo_eq hsettings' hnext, toGo_eq hsettings hchannel, hworker, ← hsignal]
  omega

/-- **Step.** A request is handled. -/
theorem OnCourse.toGo_handleNext? (h : s.OnCourse settings surface handled) {next : Event × Session}
    (hnext : s.handleNext? = some next) :
    next.2.toGo surface.buffer.text < s.toGo surface.buffer.text := by
  obtain ⟨hsettings, -, queue, owed, hchannel, -, -, howes, -⟩ := h
  cases queue with
  | nil =>
    rw [Session.handleNext?, hchannel] at hnext
    cases hnext
  | cons r rest =>
    have hle := Worker.toGo_answered howes r
    rw [handleNext?_of_cons hchannel, Surface.text_foldl_after, hsettings] at hnext
    obtain rfl := Option.some.inj hnext
    rw [toGo_eq rfl rfl, toGo_eq hsettings hchannel, List.length_cons]
    dsimp only
    omega

/-- When all requests of a pass have been handled, the surface has been highlighted. -/
theorem OnCourse.finished
    (h : s.OnCourse settings surface (passRequests settings surface.buffer.text)) :
    ∃ now, s.channel = some ⟨now, []⟩ ∧ now.buffer.text = surface.buffer.text ∧
      now.buffer.classes = (surface.buffer.resetStyling.applyBatch
        (scanOf settings surface.buffer.text).spans).classes := by
  obtain ⟨-, -, queue, owed, hchannel, -, -, -, hall⟩ := h
  rw [List.append_assoc, List.append_right_eq_self, List.append_eq_nil_iff] at hall
  obtain ⟨rfl, -⟩ := hall
  exact ⟨_, hchannel, Surface.text_foldl_after _ _, Surface.foldl_after_passRequests _ _ _⟩

end Session

/-! ### Runs -/

namespace Workplace

variable {surface : Surface} {handled : List Request} {c d : Workplace}

/-- A pass is under way among hands that have never edited. -/
structure OnCourse (settings : Settings) (surface : Surface) (handled : List Request)
    (c : Workplace) :
    Prop where
  session : c.session.OnCourse settings surface handled
  edits_eq : c.edits = .blank

/-- A session that is on course has its host. -/
theorem OnCourse.connected (h : c.OnCourse settings surface handled) :
    c.surroundings.connected = true := by
  obtain ⟨-, -, queue, owed, hchannel, -⟩ := h.session
  exact congrArg Option.isSome hchannel

/-- Nobody types while a session is on course. -/
theorem OnCourse.isTyping (h : c.OnCourse settings surface handled) :
    c.surroundings.isTyping = false := by
  show c.edits.isTyping c.now c.quietPeriod = false
  rw [h.edits_eq]
  rfl

/-- **Step.** Whatever happens while nobody edits, and a turn leaves less to do. -/
theorem OnCourse.move (h : c.OnCourse settings surface handled) {m : Move} (hm : m.IsQuiet)
    (hmove : c.move? m = some d) :
    ∃ more, (c.event? m).toList = more.map Request.event ∧
    d.OnCourse settings surface (handled ++ more) ∧
      d.session.toGo surface.buffer.text + [m].countP Move.isTurn
        ≤ c.session.toGo surface.buffer.text := by
  cases m with
  | work =>
    obtain ⟨t, hadvance, rfl⟩ := Option.map_eq_some_iff.mp hmove
    refine ⟨[], rfl, ⟨?_, h.edits_eq⟩, ?_⟩
    · rw [List.append_nil]
      exact h.session.apply rfl h.connected h.isTyping hadvance
    · exact h.session.toGo_apply rfl h.connected h.isTyping hadvance
  | handle =>
    obtain ⟨next, hnext, rfl⟩ := Option.map_eq_some_iff.mp hmove
    obtain ⟨r, hevent, hcourse⟩ := h.session.handleNext? hnext
    refine ⟨[r], ?_, ⟨hcourse, h.edits_eq⟩, h.session.toGo_handleNext? hnext⟩
    rw [event?, hnext, Option.map_some, hevent]
    rfl
  | passTime duration =>
    cases hmove
    refine ⟨[], rfl, ⟨?_, h.edits_eq⟩, Nat.le_refl _⟩
    rw [List.append_nil]
    exact h.session
  | edit | record | set | drop => exact absurd hm id

/-- **Run.** By induction on what happens. -/
theorem OnCourse.run (h : c.OnCourse settings surface handled) {moves : List Move}
    (hmoves : ∀ m ∈ moves, m.IsQuiet) (hrun : c.run? moves = some d) :
    ∃ more, c.events moves = more.map Request.event ∧
    d.OnCourse settings surface (handled ++ more) ∧
      d.session.toGo surface.buffer.text + moves.countP Move.isTurn
        ≤ c.session.toGo surface.buffer.text := by
  induction moves generalizing c handled with
  | nil =>
    cases hrun
    exact ⟨[], rfl, by rwa [List.append_nil], Nat.le_refl _⟩
  | cons m rest ih =>
    obtain ⟨next, hmove, hrest⟩ := Option.bind_eq_some_iff.mp hrun
    obtain ⟨hm, hmoves⟩ := List.forall_mem_cons.mp hmoves
    obtain ⟨first, hfirst, hcourse, hless⟩ := h.move hm hmove
    obtain ⟨more, hmore, hcourse, hless'⟩ := ih hcourse hmoves hrest
    refine ⟨first ++ more, ?_, by rwa [← List.append_assoc], ?_⟩
    · rw [events, hmove, hfirst, Option.map_some, Option.getD_some, hmore, List.map_append]
    · rw [← List.singleton_append, List.countP_append]
      omega

/-- Two runs in a row are one run. -/
theorem run?_append (c : Workplace) (first more : List Move) :
    c.run? (first ++ more) = (c.run? first).bind (·.run? more) := by
  induction first generalizing c with
  | nil => rfl
  | cons m rest ih =>
    rw [List.cons_append, run?, run?, Option.bind_assoc]
    exact congrArg _ (funext ih)

/-- Two runs in a row show the events of the first and then those of the second. -/
theorem events_append {first : List Move} (hrun : c.run? first = some d) (more : List Move) :
    c.events (first ++ more) = c.events first ++ d.events more := by
  induction first generalizing c with
  | nil =>
    cases hrun
    rfl
  | cons m rest ih =>
    obtain ⟨next, hmove, hrest⟩ := Option.bind_eq_some_iff.mp hrun
    simp only [List.cons_append, events, hmove, Option.map_some, Option.getD_some, ih hrest,
      List.append_assoc]

/-- Nothing but time passes before the signal is set. -/
theorem run?_of_unset (hworker : c.session.worker = .waiting) (hunset : c.session.signal = .unset)
    (hqueue : c.session.handleNext? = none) {moves : List Move} (hmoves : ∀ m ∈ moves, m.IsQuiet)
    (hrun : c.run? moves = some d) :
    c.events moves = [] ∧ d.session = c.session ∧ d.edits = c.edits := by
  -- Until the signal is set, time passing is the only quiet move that can be made.
  induction moves generalizing c with
  | nil =>
    cases hrun
    exact ⟨rfl, rfl, rfl⟩
  | cons m rest ih =>
    obtain ⟨next, hmove, hrest⟩ := Option.bind_eq_some_iff.mp hrun
    obtain ⟨hm, hquiet⟩ := List.forall_mem_cons.mp hmoves
    cases m with
    | passTime duration =>
      cases hmove
      exact ih hworker hunset hqueue hquiet hrest
    | work =>
      rw [move?, hworker] at hmove
      simp [Worker.advance?, surroundings, hunset, RestartSignal.wait?,
        RestartSignal.unset] at hmove
    | handle =>
      rw [move?, hqueue] at hmove
      cases hmove
    | edit | record | set | drop => exact absurd hm id

/-- **Run.** The signal is set once, while the worker waits for it and no request is on its way. -/
theorem run?_of_set {settings : Settings} {quietPeriod hands hand : Nat} {buffer : StyledBuffer}
    {before after : List Move} (hquiet : ∀ m ∈ before ++ after, m.IsQuiet)
    (hrun : (start settings quietPeriod hands buffer).run? (before ++ .set hand :: after)
      = some d) :
    ∃ done, (start settings quietPeriod hands buffer).events (before ++ .set hand :: after)
        = done.map Request.event ∧ d.OnCourse settings (.ofBuffer buffer) done ∧
      after.countP Move.isTurn ≤ 2 * ((Pass.ofText settings buffer.text).weight + 8) := by
  rw [run?_append] at hrun
  obtain ⟨c, hbefore, hafter⟩ := Option.bind_eq_some_iff.mp hrun
  obtain ⟨hquiet, hquiet'⟩ := List.forall_mem_append.mp hquiet
  obtain ⟨hnone, hsession, hedits⟩ := run?_of_unset rfl rfl rfl hquiet hbefore
  obtain ⟨next, hset, hrest⟩ := Option.bind_eq_some_iff.mp hafter
  rw [events_append hbefore, hnone, List.nil_append]
  have hnext : next.session = (start settings quietPeriod hands buffer).session.notice ∧
      next.edits = .blank := by
    simp only [move?] at hset
    split at hset
    · cases hset
      exact ⟨congrArg Session.notice hsession, hedits⟩
    · cases hset
  -- The set signal starts the one pass, which owes all of its requests.
  have hcourse : next.OnCourse settings (.ofBuffer buffer) [] := by
    refine ⟨?_, hnext.2⟩
    rw [hnext.1]
    exact Session.onCourse_notice settings (.ofBuffer buffer)
  obtain ⟨done, hevents, hcourse, hless⟩ := hcourse.run hquiet' hrest
  refine ⟨done, ?_, hcourse, ?_⟩
  · rw [events, hset, ← hevents]
    rfl
  · have hstart : next.session.toGo buffer.text
      = 2 * ((Pass.ofText settings buffer.text).weight + 8) := by
      rw [hnext.1]
      rfl
    rw [← hstart]
    exact Nat.le_trans (Nat.le_add_left _ _) hless

end Workplace

end XmlHighlight
