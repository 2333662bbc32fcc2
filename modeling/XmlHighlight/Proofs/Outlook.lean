import XmlHighlight.Proofs.Batches
import XmlHighlight.Worker.Session

/-!
# Outlook — what a surface comes to

Requests are handled one after the other, and a scan is a list of actions. So it can be told in
advance what becomes of a surface if everything that is on its way to it is handled, and if the rest
of a scan is carried out after that. Neither handling a request nor carrying out an action changes
this outlook.

* `Surface.after`, `Surface.performAll` — a surface after a request, and after some actions of a
  scan;
* `Channel.outlook` — a surface after all requests on their way to it;
* `Session.channel_apply`, `Session.handleNext?_eq_some` — what the worker and the host do to it;
* `Surface.IsHighlighted`, `Surface.IndicatorHidden` — what a surface should look like in the end;
* `Pass.IsSound` — a scan under way leads to such a surface, with `Pass.isSound_ofText` as its
  beginning.
-/

namespace XmlHighlight

/-! ### After a request -/

namespace Surface

/-- A surface after it has handled a request. -/
def after (s : Surface) (r : Request) : Surface := (s.handle r).1

variable (s : Surface)

/-- Requests never change the text. -/
@[simp] theorem text_after (r : Request) : (s.after r).buffer.text = s.buffer.text := by
  cases r with
  | showProgress p =>
    simp only [after, handle, showProgress]
    split
    · split <;> rfl
    · split <;> rfl
  | readText => rfl
  | resetStyling => rfl
  | applyBatch spans => rfl
  | notify message => rfl

/-- Reports of progress leave the styling alone. -/
@[simp] theorem classes_after_showProgress (p : Progress) :
    (s.after (.showProgress p)).buffer.classes = s.buffer.classes := by
  simp only [after, handle, showProgress]
  split
  · split <;> rfl
  · split <;> rfl

@[simp] theorem classes_after_applyBatch (spans : List Span) :
    (s.after (.applyBatch spans)).buffer.classes
      = spans.foldl StyledBuffer.paint s.buffer.classes := rfl

@[simp] theorem classes_after_resetStyling :
    (s.after .resetStyling).buffer.classes = Array.replicate s.buffer.classes.size none := rfl

/-- The progress indicator is not to be seen. -/
def IndicatorHidden : Prop := s.indicatorShown = false ∧ s.buffer.progress = none

/-- The last report of a scan that completes hides the indicator. -/
theorem indicatorHidden_after_complete : (s.after (.showProgress .complete)).IndicatorHidden := by
  have hcomplete : Progress.complete.isComplete = true := rfl
  simp only [after, handle, showProgress, hcomplete, if_true]
  split
  · exact ⟨rfl, rfl⟩
  · exact ⟨rfl, rfl⟩

theorem indicatorHidden_after_notify (message : String) :
    (s.after (.notify message)).IndicatorHidden := ⟨rfl, rfl⟩

/-! ### After actions of a scan -/

/-- A surface after an action of a scan. Spans are painted before progress is shown, and nothing is
    asked for if there are none. -/
def perform : Action → Surface
  | .pull => s
  | .poll => s
  | .flush f =>
    (if f.spans.isEmpty then s else s.after (.applyBatch f.spans)).after (.showProgress f.progress)

/-- A surface after some actions of a scan. -/
def performAll (actions : List Action) : Surface := actions.foldl perform s

@[simp] theorem performAll_cons (a : Action) (rest : List Action) :
    s.performAll (a :: rest) = (s.perform a).performAll rest := rfl

@[simp] theorem performAll_append (before rest : List Action) :
    s.performAll (before ++ rest) = (s.performAll before).performAll rest := List.foldl_append

@[simp] theorem text_perform (a : Action) : (s.perform a).buffer.text = s.buffer.text := by
  cases a with
  | pull => rfl
  | poll => rfl
  | flush f =>
    rw [perform, text_after]
    split
    · rfl
    · exact text_after _ _

@[simp] theorem text_performAll (actions : List Action) :
    (s.performAll actions).buffer.text = s.buffer.text := by
  induction actions generalizing s with
  | nil => rfl
  | cons a rest ih => rw [performAll_cons, ih, text_perform]

/-- The styling after some actions is the styling before, painted with all spans that they hand
    out. -/
theorem classes_performAll (actions : List Action) :
    (s.performAll actions).buffer.classes
      = (spansOf (flushesOf actions)).foldl StyledBuffer.paint s.buffer.classes := by
  induction actions generalizing s with
  | nil => rfl
  | cons a rest ih =>
    rw [performAll_cons, ih]
    cases a with
    | pull => rfl
    | poll => rfl
    | flush f =>
      rw [flushesOf_flush, spansOf_cons, List.foldl_append, perform, classes_after_showProgress]
      by_cases hspans : f.spans.isEmpty
      · rw [if_pos hspans, List.isEmpty_iff.mp hspans, List.foldl_nil]
      · rw [if_neg hspans, classes_after_applyBatch]

end Surface

/-! ### After everything that is on its way -/

namespace Channel

/-- The surface as it will be when all requests on their way to it have been handled. -/
def outlook (c : Channel) : Surface := c.drain.2.surface

/-- Handling the whole queue leaves the surface that all of its requests make. -/
theorem surface_handleUntil_never (surface : Surface) (queue : List Request) :
    (handleUntil (fun _ => false) surface queue).2.surface = queue.foldl Surface.after surface := by
  induction queue generalizing surface with
  | nil => rfl
  | cons r rest ih => exact ih (surface.after r)

/-- The outlook is what all requests in the queue will make of the surface. -/
theorem outlook_eq (c : Channel) : c.outlook = c.queue.foldl Surface.after c.surface :=
  surface_handleUntil_never _ _

@[simp] theorem outlook_nil (surface : Surface) : outlook ⟨surface, []⟩ = surface := rfl

/-- Handling a request does not change the outlook. -/
@[simp] theorem outlook_cons (surface : Surface) (r : Request) (rest : List Request) :
    outlook ⟨surface, r :: rest⟩ = outlook ⟨surface.after r, rest⟩ := by
  rw [outlook_eq, outlook_eq, List.foldl_cons]

/-- A request that is sent is handled after all that have been sent before. -/
@[simp] theorem outlook_post (c : Channel) (r : Request) :
    (c.post r).outlook = c.outlook.after r := by
  rw [outlook_eq, outlook_eq, post, List.foldl_append, List.foldl_cons, List.foldl_nil]

end Channel

/-- A surface after a request, if there is one. -/
def Surface.afterAny (s : Surface) : Option Request → Surface
  | some r => s.after r
  | none => s

/-- What the worker has asked for comes after all that is on its way. -/
theorem Session.channel_apply {s : Session} {channel : Channel} (h : s.channel = some channel)
    (t : Turn) : ∃ next, (s.apply t).channel = some next ∧
      next.outlook = channel.outlook.afterAny t.request ∧
      next.queue = channel.queue ++ t.request.toList := by
  obtain ⟨worker, signal, request⟩ := t
  cases request with
  | none => exact ⟨channel, h, rfl, (List.append_nil _).symm⟩
  | some r =>
    refine ⟨channel.post r, ?_, Channel.outlook_post channel r, rfl⟩
    rw [Session.apply, h]
    rfl

/-- What a handled request does to a session. -/
theorem Session.handleNext?_eq_some {s : Session} {next : Event × Session}
    (h : s.handleNext? = some next) :
    ∃ surface r rest, s.channel = some ⟨surface, r :: rest⟩ ∧
      next.2 = { s with
        channel := some ⟨surface.after r, rest⟩
        worker :=
          if r.isBlocking then s.worker.receive s.settings (surface.after r).buffer.text
          else s.worker } := by
  rw [Session.handleNext?] at h
  split at h
  · next surface r rest hchannel =>
    cases h
    exact ⟨surface, r, rest, hchannel, rfl⟩
  · cases h

/-! ### The scan of a text -/

/-- What a scan of a text does if nobody stops it. -/
def scanOf (settings : Settings) (text : String) : Report :=
  let s := Source.ofText text
  (documentPlan s (.build s) settings).run never

/-- A plan either completes, and then it shows last that everything has been covered, or it
    fails. -/
def Plan.Concludes (plan : Plan) : Prop :=
  (plan.ending = .ok .completed ∧
      ∃ before spans, plan.actions.toList = before ++ [.flush ⟨.complete, spans⟩]) ∨
    ∃ e, plan.ending = .error e

/-- A scan that goes over its items to the end completes or fails. -/
theorem Scanner.concludes_takeAll (s : Source) (index : LineIndex) (settings : Settings)
    (sc : Scanner) (items : List TokenItem) : (sc.takeAll s index settings items).Concludes := by
  induction items generalizing sc with
  | nil => exact .inl ⟨rfl, sc.actions.toList, sc.batch.toList, Array.toList_push⟩
  | cons item rest ih =>
    rw [Scanner.takeAll]
    split
    · next sc' _ => exact ih sc'
    · next e _ => exact .inr ⟨e, rfl⟩

/-- A scan of a document is never cut short by itself. -/
theorem concludes_documentPlan (s : Source) (index : LineIndex) (settings : Settings) :
    (documentPlan s index settings).Concludes := by
  unfold documentPlan
  split
  · exact .inl ⟨rfl, [], [], rfl⟩
  · split
    · next e _ => exact .inr ⟨_, rfl⟩
    · exact Scanner.concludes_takeAll s index settings .start _

/-- The scan of a text completes or fails, since nobody cancels it. -/
theorem ending_scanOf (settings : Settings) (text : String) :
    (scanOf settings text).ending = .ok .completed ∨ ∃ e,
    (scanOf settings text).ending = .error e := by
  rw [scanOf, ending_run_never]
  rcases concludes_documentPlan (.ofText text) (.build (.ofText text)) settings with ⟨hend, -⟩
    | hend
  · exact .inl hend
  · exact .inr hend

/-- A text that is not well formed has no spans. -/
theorem spans_scanOf_of_error {settings : Settings} {text : String} {e : Xml.SyntaxError}
    (h : Xml.parse (.ofText text) = .error e) : (scanOf settings text).spans = [] := by
  rw [scanOf, spans_run_never, documentPlan]
  split
  · rfl
  · rw [tokens, h]
    rfl

/-! ### What a surface should look like -/

@[simp] theorem StyledBuffer.size_paintFrom (style : StyleClass) (n i : Nat)
    (classes : Array (Option StyleClass)) : (paintFrom style n i classes).size = classes.size := by
  induction n generalizing i classes with
  | zero => rfl
  | succ n ih => rw [paintFrom, ih, Array.size_setIfInBounds]

@[simp] theorem StyledBuffer.size_foldl_paint (spans : List Span)
    (classes : Array (Option StyleClass)) :
    (spans.foldl paint classes).size = classes.size := by
  induction spans generalizing classes with
  | nil => rfl
  | cons span rest ih => rw [List.foldl_cons, ih, paint, size_paintFrom]

/-- The styling is what a scan of the text leaves behind that nobody stops. -/
def Surface.IsHighlighted (settings : Settings) (s : Surface) : Prop :=
  s.buffer.classes
    = (s.buffer.resetStyling.applyBatch (scanOf settings s.buffer.text).spans).classes

/-- A message leaves the highlighting as it is. -/
theorem Surface.IsHighlighted.notify {settings : Settings} {s : Surface}
    (h : s.IsHighlighted settings)
    (message : String) : (s.after (.notify message)).IsHighlighted settings := h

/-- Nothing is styled where nothing is painted. -/
theorem Surface.IsHighlighted.classAt {settings : Settings} {s : Surface}
    (h : s.IsHighlighted settings)
    (hspans : (scanOf settings s.buffer.text).spans = []) (i : Nat) :
    s.buffer.classAt i = none := by
  rw [StyledBuffer.classAt, h, hspans]
  simp only [StyledBuffer.applyBatch, StyledBuffer.resetStyling, List.foldl_nil,
    Array.getElem?_replicate]
  split <;> rfl

/-! ### A scan under way -/

/-- A scan under way is one of the text on the surface, and what is left of it makes the surface
    look as it should. -/
structure Pass.IsSound (settings : Settings) (p : Pass) (s : Surface) : Prop where
  lost_eq : p.lost = false
  text_eq : s.buffer.text = p.text
  ending_eq : p.ending = (scanOf settings p.text).ending
  isHighlighted : (s.performAll p.todo).IsHighlighted settings
  indicatorHidden : p.ending = .ok .completed → (s.performAll p.todo).IndicatorHidden

/-- A scan that begins on a surface without styling is sound. -/
theorem Pass.isSound_ofText {settings : Settings} {s : Surface} {text : String}
    (htext : s.buffer.text = text)
    (hblank : s.buffer.classes = Array.replicate s.buffer.classes.size none) :
    (ofText settings text).IsSound settings s := by
  subst htext
  refine ⟨rfl, rfl, ?_, ?_, fun hcompleted => ?_⟩
  · rw [scanOf, ending_run_never]
    rfl
  · -- The classes are blank to begin with, so painting over them is painting from scratch.
    rw [Surface.IsHighlighted, Surface.text_performAll, scanOf, spans_run_never]
    simp only [StyledBuffer.applyBatch, StyledBuffer.resetStyling]
    rw [Surface.classes_performAll, StyledBuffer.size_foldl_paint, ← hblank]
    rfl
  · rcases concludes_documentPlan (.ofText s.buffer.text) (.build (.ofText s.buffer.text)) settings
      with ⟨-, before, spans, hactions⟩ | ⟨e, hfailed⟩
    · have htodo : (ofText settings s.buffer.text).todo = before ++ [.flush ⟨.complete, spans⟩] :=
        hactions
      rw [htodo, Surface.performAll_append]
      exact Surface.indicatorHidden_after_complete _
    · have hending : (ofText settings s.buffer.text).ending = .error e := hfailed
      rw [hending] at hcompleted
      cases hcompleted

/-- **Step.** It stays sound when its first action is carried out. -/
theorem Pass.IsSound.skip {settings : Settings} {p : Pass} {s : Surface} {a : Action}
    {rest : List Action} (h : p.IsSound settings s) (hfirst : p.todo = a :: rest) :
    p.skip.IsSound settings (s.perform a) := by
  have hrest : (s.perform a).performAll p.skip.todo = s.performAll p.todo := by
    rw [Pass.skip, hfirst, List.tail_cons, Surface.performAll_cons]
  refine ⟨h.lost_eq, (Surface.text_perform s a).trans h.text_eq, h.ending_eq, ?_, ?_⟩
  · rw [hrest]
    exact h.isHighlighted
  · rw [hrest]
    exact h.indicatorHidden

/-- **Step.** It stays sound when only the spans of its first action are painted, which leaves the
    report of progress to be made. -/
theorem Pass.IsSound.dropSpans {settings : Settings} {p : Pass} {s : Surface} {f : Flush}
    {rest : List Action} (h : p.IsSound settings s) (hfirst : p.todo = .flush f :: rest)
    (hspans : ¬ f.spans.isEmpty) :
    p.dropSpans.IsSound settings (s.after (.applyBatch f.spans)) := by
  have hdrop : p.dropSpans = { p with todo := .flush ⟨f.progress, []⟩ :: rest } := by
    rw [Pass.dropSpans, hfirst]
  -- The spans are on the surface already, and all other actions are the same as before.
  have hrest : (s.after (.applyBatch f.spans)).performAll p.dropSpans.todo
    = s.performAll p.todo := by
    rw [hdrop, hfirst, Surface.performAll_cons, Surface.performAll_cons]
    simp only [Surface.perform, List.isEmpty_nil, if_true, if_neg hspans]
  refine ⟨?_, ?_, ?_, ?_, ?_⟩
  · rw [hdrop]
    exact h.lost_eq
  · rw [hdrop, Surface.text_after]
    exact h.text_eq
  · rw [hdrop]
    exact h.ending_eq
  · rw [hrest]
    exact h.isHighlighted
  · rw [hrest, hdrop]
    exact h.indicatorHidden

end XmlHighlight
