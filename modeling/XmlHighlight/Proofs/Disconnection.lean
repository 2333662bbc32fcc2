import XmlHighlight.Proofs.PassRuns
import XmlHighlight.Proofs.SurfaceCalls

/-!
# Disconnection — the end of a worker

A worker ends only if a call of the surface tells it that the surface is gone. This may happen
between any two of its actions, in the middle of a scan as well, and it may take some actions more
until the worker has ended. It makes no call in them.

* `Workplace.calls`, `Workplace.requests` — the calls and the requests of a run;
* `Workplace.Chronicle` — the invariant, with `Workplace.Chronicle.move` as the step and
  `Workplace.Chronicle.run` as the run;
* `Workplace.Ends` — a worker that is about to end, whatever else happens;
* `disconnection_is_clean` — the calls of a worker, and its end.
-/

namespace XmlHighlight

/-! ### The calls of a run -/

/-- The worker goes on. -/
def Move.isWork : Move → Bool
  | work => true
  | _ => false

namespace Workplace

/-- A call that the worker makes, or whose answer it learns not to come. -/
def call? (c : Workplace) : Move → Option Call
  | .work => c.session.worker.call? c.surroundings
  | _ => none

/-- A request that the worker sends. -/
def request? (c : Workplace) : Move → Option Request
  | .work => (c.session.worker.advance? c.surroundings).bind Turn.request
  | _ => none

/-- What is observed while one thing happens after the other. -/
def observe {α : Type} (f : Workplace → Move → Option α) (c : Workplace) : List Move → List α
  | [] => []
  | m :: rest => (f c m).toList ++ ((c.move? m).map fun d => d.observe f rest).getD []

/-- The calls that the worker makes. -/
def calls (c : Workplace) (moves : List Move) : List Call := c.observe call? moves

/-- The requests that the worker sends. -/
def requests (c : Workplace) (moves : List Move) : List Request := c.observe request? moves

variable {c d : Workplace}

theorem observe_cons {α : Type} (f : Workplace → Move → Option α) {m : Move}
    (hmove : c.move? m = some d)
    (rest : List Move) : c.observe f (m :: rest) = (f c m).toList ++ d.observe f rest := by
  rw [observe, hmove, Option.map_some, Option.getD_some]

/-- What is observed along a run is what is observed along its parts. -/
theorem observe_append {α : Type} (f : Workplace → Move → Option α) {first : List Move}
    (hrun : c.run? first = some d) (more : List Move) :
    c.observe f (first ++ more) = c.observe f first ++ d.observe f more := by
  induction first generalizing c with
  | nil =>
    cases hrun
    rfl
  | cons m rest ih =>
    obtain ⟨next, hmove, hrest⟩ := Option.bind_eq_some_iff.mp hrun
    rw [List.cons_append, observe_cons f hmove, observe_cons f hmove, ih hrest, List.append_assoc]

/-! ### What has been told -/

/-- What the calls and requests of a run so far tell of a worker. All calls but the last are
    requests that were sent. If the worker has been told that the surface is gone, the last call is
    the one that told it. -/
structure Chronicle (c : Workplace) (made : List Call) (asked : List Request) : Prop where
  sane : c.session.worker.IsSane
  gone : c.session.worker.hasLost = true → c.session.channel = none
  calls_of_kept : c.session.worker.hasLost = false → made = asked.map .sent
  calls_of_lost : c.session.worker.hasLost = true →
    ∃ call, made = asked.map .sent ++ [call] ∧ call.isLost = true

variable {made : List Call} {asked : List Request}

/-- Nothing has been called or handled at the start. -/
theorem chronicle_start (settings : Settings) (quietPeriod hands : Nat) (buffer : StyledBuffer) :
    (start settings quietPeriod hands buffer).Chronicle [] [] where
  sane := trivial
  gone := by simp [start, Session.start, Worker.hasLost]
  calls_of_kept := fun _ => rfl
  calls_of_lost := by simp [start, Session.start, Worker.hasLost]

/-- Things that the worker has no part in leave the chronicle as it is. -/
theorem Chronicle.congr (h : c.Chronicle made asked) (hworker : d.session.worker = c.session.worker)
    (hgone : c.session.channel = none → d.session.channel = none) : d.Chronicle made asked := by
  constructor
  · rw [hworker]
    exact h.sane
  · rw [hworker]
    exact fun hlost => hgone (h.gone hlost)
  · rw [hworker]
    exact h.calls_of_kept
  · rw [hworker]
    exact h.calls_of_lost

/-- A surface that is gone does not come back. -/
theorem channel_move {m : Move} (hgone : c.session.channel = none) (hmove : c.move? m = some d) :
    d.session.channel = none := by
  -- Only a surface that is there can be changed, and nothing brings one back.
  cases m with
  | edit hand e =>
    simp only [move?] at hmove
    split at hmove
    · cases hmove
      show c.session.channel.map _ = none
      rw [hgone, Option.map_none]
    · cases hmove
  | record | set =>
    simp only [move?] at hmove
    split at hmove
    · cases hmove
      exact hgone
    · cases hmove
  | work =>
    obtain ⟨t, -, rfl⟩ := Option.map_eq_some_iff.mp hmove
    show (c.session.apply t).channel = none
    rw [Session.apply, hgone]
    cases t.request <;> rfl
  | handle =>
    obtain ⟨next, hnext, -⟩ := Option.map_eq_some_iff.mp hmove
    obtain ⟨surface, r, rest, hchannel, -⟩ := Session.handleNext?_eq_some hnext
    cases hgone.symm.trans hchannel
  | passTime | drop =>
    cases hmove
    first
    | exact hgone
    | rfl

/-- The worker changes only when it goes on, or when a request is handled. -/
theorem worker_move {m : Move} (hmove : c.move? m = some d) (hwork : m ≠ .work)
    (hhandle : m ≠ .handle) :
    d.session.worker = c.session.worker := by
  cases m with
  | work => exact absurd rfl hwork
  | handle => exact absurd rfl hhandle
  | edit | record | set =>
    simp only [move?] at hmove
    split at hmove
    · cases hmove
      rfl
    · cases hmove
  | passTime | drop =>
    cases hmove
    rfl

/-- **Step.** The worker goes on. Whether it is told anything depends on whether the surface is
    there. -/
theorem Chronicle.work (h : c.Chronicle made asked) {t : Turn}
    (hadvance : c.session.worker.advance? c.surroundings = some t) :
    (c.follow (c.session.apply t)).Chronicle
      (made ++ (c.session.worker.call? c.surroundings).toList)
      (asked ++ t.request.toList) := by
  obtain ⟨hsane, hacts⟩ := Worker.acts_advance? hadvance
  have hgone : c.session.channel = none → (c.session.apply t).channel = none := by
    intro hnone
    rw [Session.apply, hnone]
    cases t.request <;> rfl
  -- The worker makes no call, or a call that arrives, or one that tells it that the surface is
  -- gone.
  cases hacts with
  | silently call request same =>
    rw [call, request, Option.toList_none, Option.toList_none, List.append_nil, List.append_nil]
    constructor
    · exact hsane
    · exact fun hlost => hgone (h.gone (same.symm.trans hlost))
    · exact fun hkept => h.calls_of_kept (same.symm.trans hkept)
    · exact fun hlost => h.calls_of_lost (same.symm.trans hlost)
  | sending r call connected request before after =>
    rw [call, request, h.calls_of_kept before, Option.toList_some, Option.toList_some]
    constructor
    · exact hsane
    · exact fun hlost => by cases after.symm.trans hlost
    · exact fun _ => by rw [List.map_append]; rfl
    · exact fun hlost => by cases after.symm.trans hlost
  | told lost call isLost gone request before after =>
    rw [call, request, h.calls_of_kept before, Option.toList_none, List.append_nil]
    constructor
    · exact hsane
    · exact fun _ => hgone (by simpa [surroundings] using gone)
    · exact fun hkept => by cases after.symm.trans hkept
    · exact fun _ => ⟨lost, rfl, isLost⟩

/-- **Step.** A request is handled. A worker that is answered has not been told that the surface is
    gone. -/
theorem Chronicle.handle (h : c.Chronicle made asked) {next : Event × Session}
    (hnext : c.session.handleNext? = some next) : (c.follow next.2).Chronicle made asked := by
  obtain ⟨surface, r, rest, hchannel, hsession⟩ := Session.handleNext?_eq_some hnext
  have hkept : c.session.worker.hasLost = false := by
    rw [Bool.eq_false_iff]
    intro hlost
    cases (h.gone hlost).symm.trans hchannel
  -- Only a worker that waits changes when it is answered, and none that waits has been told.
  have hanswered : ∀ text, (c.session.worker.receive c.session.settings text).hasLost = false ∧
      (c.session.worker.receive c.session.settings text).IsSane := by
    intro text
    have hsane := h.sane
    cases hworker : c.session.worker with
    | awaitingText | awaitingReset => exact ⟨rfl, trivial⟩
    | awaitingBatch p =>
      rw [hworker] at hsane
      exact ⟨hsane, trivial⟩
    | waiting | settling | sleeping | reading | resetting | scanning | notifying | stopped =>
      rw [hworker] at hkept
      exact ⟨hkept, trivial⟩
  have hworker : (c.follow next.2).session.worker.hasLost = false ∧
      (c.follow next.2).session.worker.IsSane := by
    rw [hsession]
    show Worker.hasLost (if _ then _ else _) = false ∧ Worker.IsSane (if _ then _ else _)
    split
    · exact hanswered _
    · exact ⟨hkept, h.sane⟩
  refine ⟨hworker.2, ?_, fun _ => h.calls_of_kept hkept, ?_⟩
  · exact fun hlost => by cases hworker.1.symm.trans hlost
  · exact fun hlost => by cases hworker.1.symm.trans hlost

/-- **Step.** Whatever happens next. -/
theorem Chronicle.move (h : c.Chronicle made asked) {m : Move} (hmove : c.move? m = some d) :
    d.Chronicle (made ++ (c.call? m).toList) (asked ++ (c.request? m).toList) := by
  -- Only the worker makes calls, and only its turns leave requests behind.
  cases m with
  | work =>
    obtain ⟨t, hadvance, rfl⟩ := Option.map_eq_some_iff.mp hmove
    have hrequest : c.request? .work = t.request := by rw [request?, hadvance, Option.bind_some]
    rw [hrequest]
    exact h.work hadvance
  | handle =>
    obtain ⟨next, hnext, rfl⟩ := Option.map_eq_some_iff.mp hmove
    simp only [call?, request?, Option.toList_none, List.append_nil]
    exact h.handle hnext
  | edit | record | set | passTime | drop =>
    have hworker := worker_move hmove nofun nofun
    simp only [call?, request?, Option.toList_none, List.append_nil]
    exact h.congr hworker fun hgone => channel_move hgone hmove

/-- **Run.** Whatever happens, in whatever order. -/
theorem Chronicle.run (h : c.Chronicle made asked) {moves : List Move}
    (hrun : c.run? moves = some d) :
    d.Chronicle (made ++ c.calls moves) (asked ++ c.requests moves) := by
  induction moves generalizing c made asked with
  | nil =>
    cases hrun
    simpa [Workplace.calls, Workplace.requests, observe] using h
  | cons m rest ih =>
    obtain ⟨next, hmove, hrest⟩ := Option.bind_eq_some_iff.mp hrun
    have hnext := ih (h.move hmove) hrest
    rw [List.append_assoc, List.append_assoc] at hnext
    rw [Workplace.calls, Workplace.requests, observe_cons call? hmove, observe_cons request? hmove]
    exact hnext

/-- A call that has told the worker is the last one, and the calls before it are requests that were
    sent. -/
theorem Chronicle.before_lost (h : c.Chronicle made asked) {before after : List Call} {call : Call}
    (hcalls : made = before ++ call :: after) (hcall : call.isLost = true) :
    c.session.worker.hasLost = true ∧ before = asked.map .sent ∧ after = [] := by
  have hmem : call ∈ made := by
    rw [hcalls]
    exact List.mem_append_right _ List.mem_cons_self
  have hsent : call ∉ asked.map Call.sent := by
    intro hin
    obtain ⟨r, -, rfl⟩ := List.mem_map.mp hin
    cases hcall
  cases hkept : c.session.worker.hasLost with
  | false =>
    rw [h.calls_of_kept hkept] at hmem
    exact absurd hmem hsent
  | true =>
    obtain ⟨last, hall, -⟩ := h.calls_of_lost hkept
    have hsplit : before ++ call :: after = asked.map .sent ++ [last] := hcalls.symm.trans hall
    -- All calls but the last were sent, so the one that told the worker is the last.
    rcases List.eq_nil_or_concat after with rfl | ⟨init, final, rfl⟩
    · exact ⟨rfl, (List.append_inj' hsplit rfl).1, rfl⟩
    · rw [List.concat_eq_append, ← List.cons_append, ← List.append_assoc] at hsplit
      rw [← (List.append_inj' hsplit rfl).1] at hsent
      exact absurd (List.mem_append_right _ List.mem_cons_self) hsent

/-- No request is sent once the surface is gone. -/
theorem requests_of_gone (hgone : c.session.channel = none) {moves : List Move}
    (hrun : c.run? moves = some d) : c.requests moves = [] := by
  induction moves generalizing c with
  | nil => rfl
  | cons m rest ih =>
    obtain ⟨next, hmove, hrest⟩ := Option.bind_eq_some_iff.mp hrun
    -- Nothing can be sent to a surface that is gone.
    have hrequest : c.request? m = none := by
      cases m with
      | work =>
        obtain ⟨t, hadvance, -⟩ := Option.map_eq_some_iff.mp hmove
        have hconnected : c.surroundings.connected = false := by rw [surroundings, hgone]; rfl
        rw [request?, hadvance, Option.bind_some]
        exact Worker.request_of_gone hconnected hadvance
      | edit | record | set | handle | passTime | drop => rfl
    have hnone : next.observe request? rest = [] := ih (channel_move hgone hmove) hrest
    rw [Workplace.requests, observe_cons request? hmove, hrequest, hnone]
    rfl

/-- What is sent until the surface disappears is sent first whenever the same has happened up to
    then. -/
theorem requests_prefix {before after : List Move}
    (hrun : c.run? (before ++ .drop :: after) = some d)
    (other : List Move) :
    c.requests (before ++ .drop :: after) <+: c.requests (before ++ other) := by
  rw [run?_append] at hrun
  obtain ⟨e, hbefore, hafter⟩ := Option.bind_eq_some_iff.mp hrun
  have hgone : e.requests (.drop :: after) = [] := by
    obtain ⟨next, hmove, hrest⟩ := Option.bind_eq_some_iff.mp hafter
    have hnone : next.session.channel = none := by
      cases hmove
      rfl
    rw [requests, observe_cons _ hmove]
    exact requests_of_gone hnone hrest
  have hboth : ∀ more, c.requests (before ++ more) = c.requests before ++ e.requests more :=
    observe_append _ hbefore
  rw [hboth, hboth, hgone, List.append_nil]
  exact List.prefix_append _ _

/-! ### The end of a worker -/

/-- The worker is about to end, whatever else happens: as long as it has not ended it can go on, and
    it goes on only so many times. -/
def Ends (c : Workplace) : Prop :=
  ∃ n, ∀ more d, c.run? more = some d →
    more.countP Move.isWork ≤ n ∧ (d.session.worker = .stopped ∨ (d.move? .work).isSome = true)

/-- **Step.** A worker that has been told that the surface is gone has less to do after it has gone
    on, and nothing else that happens makes a difference. -/
theorem hasLost_move {m : Move} (hlost : c.session.worker.hasLost = true)
    (hgone : c.session.channel = none) (hmove : c.move? m = some d) :
    d.session.worker.hasLost = true ∧
      d.session.worker.leftToDo + [m].countP Move.isWork ≤ c.session.worker.leftToDo := by
  cases m with
  | work =>
    obtain ⟨t, hadvance, rfl⟩ := Option.map_eq_some_iff.mp hmove
    -- Each turn that is left brings a worker that has been told nearer to its end.
    rcases Worker.advance?_of_hasLost hlost c.surroundings with hstopped
      | ⟨t', hadvance', hlost', hless⟩
    · rw [hstopped] at hadvance
      cases hadvance
    · obtain rfl := Option.some.inj (hadvance.symm.trans hadvance')
      exact ⟨hlost', hless⟩
  | handle =>
    obtain ⟨next, hnext, -⟩ := Option.map_eq_some_iff.mp hmove
    obtain ⟨surface, r, rest, hchannel, -⟩ := Session.handleNext?_eq_some hnext
    cases hgone.symm.trans hchannel
  | edit | record | set | passTime | drop =>
    have hworker := worker_move hmove nofun nofun
    rw [hworker]
    exact ⟨hlost, Nat.le_refl _⟩

/-- **Run.** So it goes on no more often than it has things to do. -/
theorem hasLost_run {moves : List Move} (hlost : c.session.worker.hasLost = true)
    (hgone : c.session.channel = none) (hrun : c.run? moves = some d) :
    d.session.worker.hasLost = true ∧
      d.session.worker.leftToDo + moves.countP Move.isWork ≤ c.session.worker.leftToDo := by
  induction moves generalizing c with
  | nil =>
    cases hrun
    exact ⟨hlost, Nat.le_refl _⟩
  | cons m rest ih =>
    obtain ⟨next, hmove, hrest⟩ := Option.bind_eq_some_iff.mp hrun
    obtain ⟨hnext, hless⟩ := hasLost_move hlost hgone hmove
    obtain ⟨hlast, hless'⟩ := ih hnext (channel_move hgone hmove) hrest
    refine ⟨hlast, ?_⟩
    rw [← List.singleton_append, List.countP_append]
    omega

/-- A worker that has lost its host does no more than stop. -/
theorem ends_of_hasLost (hlost : c.session.worker.hasLost = true)
    (hgone : c.session.channel = none) :
    c.Ends := by
  refine ⟨c.session.worker.leftToDo, fun more d hrun => ?_⟩
  obtain ⟨hlast, hless⟩ := hasLost_run hlost hgone hrun
  refine ⟨by omega, ?_⟩
  rcases Worker.advance?_of_hasLost hlast d.surroundings with hstopped | ⟨t, hadvance, -⟩
  · exact .inl hstopped
  · refine .inr ?_
    rw [move?, hadvance]
    rfl

end Workplace

/-- **Disconnection.** Whatever happens, in whatever order, and whenever the surface disappears: if
    the worker has ended, a call has told it that the surface is gone. If a call has told it, the
    worker is about to end, and no call comes after that one; the calls before it are requests that
    were sent. They are among the first requests of every run that is the same up to the moment at
    which the surface disappears. -/
theorem disconnection_is_clean {settings : Settings} {quietPeriod hands : Nat}
    {buffer : StyledBuffer}
    {moves : List Move} {c : Workplace}
    (hrun : (Workplace.start settings quietPeriod hands buffer).run? moves = some c) :
    let first := Workplace.start settings quietPeriod hands buffer
    (c.session.worker = .stopped → ∃ call ∈ first.calls moves, call.isLost = true) ∧
      ((∃ call ∈ first.calls moves, call.isLost = true) → c.Ends) ∧
      (∀ before call after, first.calls moves = before ++ call :: after → call.isLost = true →
        before = (first.requests moves).map .sent ∧ after = []) ∧
      ∀ before after other d, moves = before ++ .drop :: after →
      first.run? (before ++ other) = some d →
        first.requests moves <+: first.requests (before ++ other) := by
  intro first
  have hchronicle := (Workplace.chronicle_start settings quietPeriod hands buffer).run hrun
  rw [List.nil_append, List.nil_append] at hchronicle
  refine ⟨?_, ?_, ?_, ?_⟩
  · intro hstopped
    obtain ⟨call, hcalls, hcall⟩ := hchronicle.calls_of_lost (by rw [hstopped]; rfl)
    refine ⟨call, ?_, hcall⟩
    rw [show first.calls moves = _ from hcalls]
    exact List.mem_append_right _ List.mem_cons_self
  · rintro ⟨call, hmem, hcall⟩
    obtain ⟨before, after, hcalls⟩ := List.append_of_mem hmem
    have hlost := (hchronicle.before_lost hcalls hcall).1
    exact Workplace.ends_of_hasLost hlost (hchronicle.gone hlost)
  · intro before call after hcalls hcall
    exact (hchronicle.before_lost hcalls hcall).2
  · rintro before after other d rfl -
    exact Workplace.requests_prefix hrun other

/-- The surface disappears while spans are to be painted, and the user goes on typing. Two more
    hand-outs of the scan are left out. -/
theorem disconnection_is_clean_during_scan :
    let first := Workplace.start ⟨8, 48, 1⟩ 2 1 (.ofText "<a>\n<b/>\n</a>")
    let before : List Move :=
      [.set 0, .work, .work, .work, .handle, .work, .handle, .work, .work, .work, .work, .work,
        .work]
    let after : List Move :=
      [.edit 0 (.insert 2 " b=''"), .record 0 0, .set 0, .work, .work, .work, .work, .work, .work]
    ∃ c, first.run? (before ++ .drop :: after) = some c ∧ c.session.hasStopped = true ∧
      (∃ call ∈ first.calls (before ++ .drop :: after), call.isLost = true) ∧ c.Ends ∧
      (first.run? (before ++ [.handle, .handle, .work])).isSome = true ∧
      first.requests (before ++ .drop :: after)
      <+: first.requests (before ++ [.handle, .handle, .work]) := by
  intro first before after
  -- The surface goes away in the middle of the first pass.
  have hstops : (first.run? (before ++ .drop :: after)).any (·.session.hasStopped) = true := by
    decide +kernel
  have hother : (first.run? (before ++ [.handle, .handle, .work])).isSome = true := by
    decide +kernel
  obtain ⟨c, hrun, hstopped⟩ := (Option.any_eq_true _ _).mp hstops
  obtain ⟨d, hd⟩ := Option.isSome_iff_exists.mp hother
  obtain ⟨htold, hends, -, hprefix⟩ := disconnection_is_clean hrun
  have hworker : c.session.worker = .stopped := by
    unfold Session.hasStopped at hstopped
    split at hstopped
    · assumption
    · cases hstopped
  exact ⟨c, hrun, hstopped, htold hworker, hends (htold hworker), hother, hprefix _ _ _ d rfl hd⟩

end XmlHighlight
