import XmlHighlight.Proofs.Progress

/-!
# Preemption — a scan that is asked to stop

A scan polls before the first of every `pollEvery` items. The poll comes when the item has been
taken and before it is looked at, so that a scan which is stopped there has dealt with all items
before, and no other.

* `pollsUpTo` — how many polls go with a number of items;
* `Scanner.Paced`, `Plan.Paced` — a scan polls when it should;
* `Scanner.takeEach`, `Scanner.takeAll_append` — a scan goes on behind items that do not fail;
* `actionsOver` — what a scan does over the first of its items;
* `run_of_late_stop`, `run_of_stop` — a request to stop that comes too late, and one that does not;
* `preemption_is_clean` — every scan that is asked to stop.
-/

namespace XmlHighlight

/-! ### Polls and items -/

/-- How many polls go with the first `n` items, if every `every`-th item is polled at: `n / every`,
    rounded up. -/
def pollsUpTo (every n : Nat) : Nat := (n + every - 1) / every

variable {every n : Nat}

theorem pollsUpTo_zero (hevery : 0 < every) : pollsUpTo every 0 = 0 :=
  Nat.div_eq_of_lt (by omega)

/-- Over whole intervals there is one poll for each. -/
theorem pollsUpTo_mul (hevery : 0 < every) (k : Nat) : pollsUpTo every (k * every) = k := by
  unfold pollsUpTo
  rw [Nat.add_sub_assoc hevery, Nat.mul_comm, Nat.mul_add_div hevery, Nat.div_eq_of_lt (by omega),
    Nat.add_zero]

/-- There are no fewer polls over more items. -/
theorem pollsUpTo_mono (every : Nat) {n m : Nat} (h : n ≤ m) :
    pollsUpTo every n ≤ pollsUpTo every m :=
  Nat.div_le_div_right (by omega)

/-- The next item is polled at if it is the first of a round. -/
theorem pollsUpTo_succ (hevery : 0 < every) (n : Nat) :
    pollsUpTo every (n + 1) = pollsUpTo every n + if n % every = 0 then 1 else 0 := by
  have hround : n = every * (n / every) + n % every := (Nat.div_add_mod n every).symm
  have hrest : n % every < every := Nat.mod_lt n hevery
  -- Rounding up, the count changes only where `n` is a multiple of the interval.
  have hnext : pollsUpTo every (n + 1) = n / every + 1 := by
    unfold pollsUpTo
    rw [show n + 1 + every - 1 = n + every by omega, Nat.add_div_right n hevery]
  rw [hnext]
  split
  · next hfirst =>
    have hn : n = n / every * every := by rw [Nat.mul_comm]; omega
    rw [hn, pollsUpTo_mul hevery, Nat.mul_div_cancel _ hevery]
  · next hlater =>
    unfold pollsUpTo
    have hsum : n + every - 1 = every * (n / every + 1) + (n % every - 1) := by
      rw [Nat.mul_add, Nat.mul_one]
      omega
    rw [hsum, Nat.mul_add_div hevery, Nat.div_eq_of_lt (show n % every - 1 < every by omega)]

/-! ### When a scan polls -/

variable (s : Source) (index : LineIndex) (settings : Settings)
variable {sc : Scanner} {items : List TokenItem}

namespace Scanner

/-- A scan has taken the items that it counts, and has polled at the first of every round. -/
structure Paced (settings : Settings) (sc : Scanner) : Prop where
  pulls : pullsOf sc.actions.toList = sc.pulled
  polls : pollsOf sc.actions.toList = pollsUpTo settings.pollEvery sc.pulled

theorem paced_start : start.Paced settings :=
  ⟨rfl, (pollsUpTo_zero settings.pollEvery_pos).symm⟩

/-- The actions that go with the next item before it is looked at. -/
def pullActions (sc : Scanner) : List Action :=
  if sc.pulled % settings.pollEvery = 0 then [.pull, .poll] else [.pull]

/-- Pulling an item adds the poll, if one is due, and the pull. -/
theorem actions_pull (sc : Scanner) :
    (sc.pull settings).actions.toList = sc.actions.toList ++ sc.pullActions settings := by
  unfold pull pullActions
  split <;> simp

theorem Paced.pull (h : sc.Paced settings) : (sc.pull settings).Paced settings := by
  have hpulled : (sc.pull settings).pulled = sc.pulled + 1 := rfl
  refine ⟨?_, ?_⟩ <;> rw [actions_pull, hpulled]
  · rw [pullsOf_append, h.pulls]
    unfold pullActions
    split <;> rfl
  · rw [pollsOf_append, h.polls, pollsUpTo_succ settings.pollEvery_pos]
    unfold pullActions
    split <;> rfl

/-- The rest of what a scan does with an item is to hand out spans, if anything. -/
theorem actions_take (sc : Scanner) (item : TokenItem) :
    (sc.take s index settings item).1.pulled = sc.pulled + 1 ∧
      ∃ flushes : List Flush, (sc.take s index settings item).1.actions.toList
        = sc.actions.toList ++ sc.pullActions settings ++ flushes.map .flush := by
  rw [← actions_pull settings sc]
  cases item with
  | error message => exact ⟨rfl, [], (List.append_nil _).symm⟩
  | ok token =>
    -- Reaching the line of the token adds one flush or none; painting it adds no action.
    have hreach : ((sc.pull settings).reach index settings token.pos.line).pulled = sc.pulled + 1 ∧
        ∃ flushes : List Flush,
        ((sc.pull settings).reach index settings token.pos.line).actions.toList
          = (sc.pull settings).actions.toList ++ flushes.map .flush := by
      simp only [Scanner.reach]
      split
      · exact ⟨rfl, [_], Array.toList_push⟩
      · exact ⟨rfl, [], (List.append_nil _).symm⟩
    cases hresult : (tokenSpans s index token).result with
    | error e =>
      simp only [Scanner.take, hresult]
      exact hreach
    | ok u =>
      simp only [Scanner.take, hresult]
      exact hreach

/-- **Step.** A scan keeps its pace whatever the next item is. -/
theorem Paced.take (h : sc.Paced settings) (item : TokenItem) :
    (sc.take s index settings item).1.Paced settings := by
  obtain ⟨hpulled, flushes, hactions⟩ := actions_take s index settings sc item
  have hpull := h.pull
  refine ⟨?_, ?_⟩ <;> rw [hactions, hpulled, ← actions_pull]
  · rw [pullsOf_append, pullsOf_flushes, hpull.pulls]
    rfl
  · rw [pollsOf_append, pollsOf_flushes, hpull.polls]
    rfl

/-- A scan that has dealt with some more items. -/
def takeEach (s : Source) (index : LineIndex) (settings : Settings) (sc : Scanner)
    (items : List TokenItem) :
    Scanner :=
  items.foldl (fun sc item => (sc.take s index settings item).1) sc

/-- Each item is pulled once. -/
theorem pulled_takeEach (sc : Scanner) (items : List TokenItem) :
    (sc.takeEach s index settings items).pulled = sc.pulled + items.length := by
  induction items generalizing sc with
  | nil => rfl
  | cons item rest ih =>
    have hstep := (actions_take s index settings sc item).1
    exact (ih _).trans (by rw [hstep, List.length_cons]; omega)

/-- **Run.** By induction on the items. -/
theorem Paced.takeEach (h : sc.Paced settings) (items : List TokenItem) :
    (sc.takeEach s index settings items).Paced settings := by
  induction items generalizing sc with
  | nil => exact h
  | cons item rest ih => exact ih (h.take s index settings item)

/-- An item fails by itself, whatever has been done before. -/
theorem take_snd (sc : Scanner) (item : TokenItem) :
    (sc.take s index settings item).2 = itemFailure s index item := by
  cases item with
  | error message => rfl
  | ok token =>
    cases hresult : (tokenSpans s index token).result <;> simp [Scanner.take, itemFailure, hresult]

/-- A scan goes on behind an item that does not fail, and ends at one that does. -/
theorem takeAll_cons (sc : Scanner) (item : TokenItem) (rest : List TokenItem) :
    sc.takeAll s index settings (item :: rest) =
      match itemFailure s index item with
      | none => (sc.take s index settings item).1.takeAll s index settings rest
      | some e => ⟨(sc.take s index settings item).1.actions, .error e⟩ := by
  rw [takeAll, ← take_snd s index settings sc item]
  split <;> simp_all

/-- A scan goes on behind items that do not fail. -/
theorem takeAll_append (sc : Scanner) (before rest : List TokenItem)
    (h : ∀ i ∈ before, itemFailure s index i = none) :
    sc.takeAll s index settings (before ++ rest)
      = (sc.takeEach s index settings before).takeAll s index settings rest := by
  induction before generalizing sc with
  | nil => rfl
  | cons item more ih =>
    obtain ⟨hitem, hmore⟩ := List.forall_mem_cons.mp h
    rw [List.cons_append, takeAll_cons, hitem]
    exact ih _ hmore

/-- What a scan has done remains done. -/
theorem actions_takeAll (sc : Scanner) (items : List TokenItem) :
    ∃ more, (sc.takeAll s index settings items).actions.toList = sc.actions.toList ++ more := by
  induction items generalizing sc with
  | nil => exact ⟨_, Array.toList_push⟩
  | cons item rest ih =>
    obtain ⟨-, flushes, hactions⟩ := actions_take s index settings sc item
    rw [List.append_assoc] at hactions
    rw [takeAll_cons]
    cases itemFailure s index item with
    | some e => exact ⟨_, hactions⟩
    | none =>
      obtain ⟨more, hmore⟩ := ih (sc.take s index settings item).1
      exact ⟨_, by simpa only [hactions, List.append_assoc] using hmore⟩

end Scanner

/-- A plan takes some of `n` items, all of them if it completes, and polls at the first of every
    round. -/
structure Plan.Paced (settings : Settings) (n : Nat) (plan : Plan) : Prop where
  polls : pollsOf plan.actions.toList = pollsUpTo settings.pollEvery (pullsOf plan.actions.toList)
  pulls_le : pullsOf plan.actions.toList ≤ n
  pulls_of_completed : plan.ending = .ok .completed → pullsOf plan.actions.toList = n

/-- **Run.** By induction on the items that are left. -/
theorem Scanner.Paced.takeAll (h : sc.Paced settings) (items : List TokenItem) :
    (sc.takeAll s index settings items).Paced settings (sc.pulled + items.length) := by
  induction items generalizing sc with
  | nil =>
    have hpulls : pullsOf (sc.takeAll s index settings []).actions.toList = sc.pulled := by
      simpa [Scanner.takeAll, finish, pullsOf] using h.pulls
    refine ⟨?_, Nat.le_of_eq hpulls, fun _ => hpulls⟩
    rw [hpulls]
    simpa [Scanner.takeAll, finish, pollsOf] using h.polls
  | cons item rest ih =>
    have hstep : (sc.take s index settings item).1.Paced settings := h.take s index settings item
    have hpulled := (actions_take s index settings sc item).1
    rw [takeAll_cons, List.length_cons, Nat.add_comm rest.length, ← Nat.add_assoc, ← hpulled]
    cases itemFailure s index item with
    | none => exact ih hstep
    -- The failing item has been pulled and polled for; those behind it never are.
    | some e =>
      refine ⟨?_, ?_, by simp⟩
      · rw [hstep.pulls]
        exact hstep.polls
      · rw [hstep.pulls]
        exact Nat.le_add_right _ _

/-- A plan polls as often as its items make it due. -/
theorem paced_planOf (items : List TokenItem) :
    (planOf s index settings true items).Paced settings items.length := by
  simpa [planOf, Scanner.start] using (Scanner.paced_start settings).takeAll s index settings items

/-! ### A first request to stop -/

/-- The `k`-th poll, counted from one, is the first that is told to stop. -/
structure StopsFirstAt (cancel : Nat → Bool) (k : Nat) : Prop where
  pos : 0 < k
  stops : cancel k = true
  before : ∀ j, 0 < j → j < k → cancel j = false

variable {cancel : Nat → Bool} {k : Nat}

theorem StopsFirstAt.uncancelled (h : StopsFirstAt cancel k) {count : Nat} (hcount : count < k) :
    Uncancelled cancel 0 count :=
  fun j hpos hj => h.before j hpos (by omega)

/-- The actions before the one that takes an item behind the first `n`: what goes with these
    items. -/
def actionsOver : Nat → List Action → List Action
  | 0, .pull :: _ => []
  | n + 1, .pull :: rest => .pull :: actionsOver n rest
  | n, .poll :: rest => .poll :: actionsOver n rest
  | n, .flush f :: rest => .flush f :: actionsOver n rest
  | _, [] => []

/-- Actions that take `n` items and have a next one behind them are what goes with these items. -/
theorem actionsOver_append (actions rest : List Action) :
    actionsOver (pullsOf actions) (actions ++ .pull :: rest) = actions := by
  induction actions with
  | nil => rfl
  | cons a more ih =>
    have hcount : pullsOf (a :: more) = pullsOf more + pullsOf [a] := by
      rw [← List.singleton_append, pullsOf_append, Nat.add_comm]
    rw [hcount]
    cases a with
    | pull => exact congrArg _ ih
    | poll => rw [show pullsOf [.poll] = 0 from rfl, Nat.add_zero, List.cons_append, actionsOver,
        ih]
    | flush f => rw [show pullsOf [.flush f] = 0 from rfl, Nat.add_zero, List.cons_append,
        actionsOver, ih]

/-- A scan failed at one of the first `n` items. -/
def Report.FailsWithin (r : Report) (n : Nat) : Prop := (∃ e, r.ending = .error e) ∧ r.pulled ≤ n

/-- Items behind which the `k`-th poll comes: those of the rounds before. -/
def itemsBefore (settings : Settings) (k : Nat) : Nat := (k - 1) * settings.pollEvery

/-- Before the items ahead of poll `k` there are `k - 1` polls. -/
theorem pollsUpTo_itemsBefore (k : Nat) :
    pollsUpTo settings.pollEvery (itemsBefore settings k) = k - 1 :=
  pollsUpTo_mul settings.pollEvery_pos (k - 1)

/-- A scan that nobody cancels pulls all items of its plan. -/
theorem pulled_run_never (plan : Plan) : (plan.run never).pulled = pullsOf plan.actions.toList := by
  rw [Plan.run_eq_after plan (uncancelled_never _ _)]
  exact Nat.zero_add _

/-- A request to stop changes nothing if the scan is over before its poll would come. -/
theorem run_of_late_stop (h : StopsFirstAt cancel k)
    (hlate : items.length ≤ itemsBefore settings k ∨
      ((planOf s index settings true items).run never).FailsWithin (itemsBefore settings k)) :
    (planOf s index settings true items).run cancel
      = (planOf s index settings true items).run never := by
  have hpaced := paced_planOf s index settings items
  have hpulls : pullsOf (planOf s index settings true items).actions.toList
    ≤ itemsBefore settings k := by
    rcases hlate with hshort | ⟨-, hpulled⟩
    · exact Nat.le_trans hpaced.pulls_le hshort
    · rwa [pulled_run_never] at hpulled
  refine Plan.run_eq_run_never _ (h.uncancelled ?_)
  rw [hpaced.polls]
  have hpolls := pollsUpTo_mono settings.pollEvery hpulls
  rw [pollsUpTo_itemsBefore] at hpolls
  have hpos := h.pos
  omega

/-- If a scan does not fail at one of the items before `rest`, none of these fails. -/
theorem itemFailure_of_not_failsWithin (before rest : List TokenItem)
    (h : ¬((planOf s index settings true (before ++ rest)).run never).FailsWithin before.length) :
    ∀ i ∈ before, itemFailure s index i = none := by
  rw [← List.findSome?_eq_none_iff]
  cases hfail : before.findSome? (itemFailure s index) with
  | none => rfl
  | some e =>
    obtain ⟨first, item, more, rfl, hitem, hfirst⟩ := List.findSome?_eq_some_iff.mp hfail
    have hplan : planOf s index settings true (first ++ item :: more ++ rest)
        = ⟨((Scanner.start.takeEach s index settings first).take s index settings item).1.actions,
            .error e⟩ := by
      rw [planOf, if_pos rfl, List.append_assoc,
        Scanner.takeAll_append s index settings _ first _ hfirst, List.cons_append,
        Scanner.takeAll_cons, hitem]
    -- Otherwise the scan would end with that failure, pulling no item after it.
    refine absurd ⟨⟨e, ?_⟩, ?_⟩ h
    · rw [ending_run_never, hplan]
    · have hpaced : (Scanner.start.takeEach s index settings first).Paced settings :=
        (Scanner.paced_start settings).takeEach s index settings first
      have htaken := (hpaced.take s index settings item).pulls
      rw [(Scanner.actions_take s index settings _ item).1, Scanner.pulled_takeEach] at htaken
      rw [pulled_run_never, hplan, htaken]
      simp [Scanner.start]

/-- The actions of a plan in front of an item before which nothing fails: what goes with the items
    before, and then the item is taken. -/
theorem actions_planOf (before : List TokenItem) (item : TokenItem) (rest : List TokenItem)
    (hbefore : ∀ i ∈ before, itemFailure s index i = none) :
    ∃ more, (planOf s index settings true (before ++ item :: rest)).actions.toList
      = (Scanner.start.takeEach s index settings before).actions.toList
        ++ ((Scanner.start.takeEach s index settings before).pullActions settings ++ more) := by
  obtain ⟨-, flushes, hactions⟩ :=
    Scanner.actions_take s index settings (Scanner.start.takeEach s index settings before) item
  rw [List.append_assoc] at hactions
  rw [planOf, if_pos rfl, Scanner.takeAll_append s index settings _ before _ hbefore,
    Scanner.takeAll_cons]
  cases itemFailure s index item with
  | some e => exact ⟨_, hactions⟩
  | none =>
    obtain ⟨more, hmore⟩ := Scanner.actions_takeAll s index settings
      ((Scanner.start.takeEach s index settings before).take s index settings item).1 rest
    exact ⟨flushes.map .flush ++ more, by simpa only [hactions, List.append_assoc] using hmore⟩

/-- A scan that is stopped has carried out the actions that go with the items before the poll; then
    it has taken the next item and made the poll. -/
theorem run_of_stop (h : StopsFirstAt cancel k) (before : List TokenItem) (item : TokenItem)
    (rest : List TokenItem) (hlength : before.length = itemsBefore settings k)
    (hbefore : ∀ i ∈ before, itemFailure s index i = none) :
    let plan := planOf s index settings true (before ++ item :: rest)
    let actions := actionsOver before.length plan.actions.toList
    actions <+: plan.actions.toList ∧
      plan.run cancel = ⟨(flushesOf actions).toArray, k, before.length + 1, .ok .preempted⟩ := by
  intro plan actions
  have hpos := h.pos
  have hpaced : (Scanner.start.takeEach s index settings before).Paced settings :=
    (Scanner.paced_start settings).takeEach s index settings before
  have htaken : (Scanner.start.takeEach s index settings before).pulled = before.length := by
    rw [Scanner.pulled_takeEach]
    exact Nat.zero_add _
  have hpulls := hpaced.pulls.trans htaken
  -- The next item is the first of a round, so that it is polled at.
  have hnext : (Scanner.start.takeEach s index settings before).pullActions settings
    = [.pull, .poll] := by
    rw [Scanner.pullActions, htaken, hlength, itemsBefore, Nat.mul_mod_left, if_pos rfl]
  obtain ⟨more, hmore⟩ := actions_planOf s index settings before item rest hbefore
  rw [hnext] at hmore
  have hactions : actions = (Scanner.start.takeEach s index settings before).actions.toList := by
    rw [← actionsOver_append (Scanner.start.takeEach s index settings before).actions.toList
      (.poll :: more), hpulls]
    exact congrArg (actionsOver before.length) hmore
  have hpolls : pollsOf (actions ++ [.pull]) + 1 = k := by
    rw [hactions, pollsOf_append, hpaced.polls, htaken, hlength, pollsUpTo_itemsBefore]
    exact (congrArg (· + 1) (Nat.add_zero _)).trans (by omega)
  rw [← hactions] at hmore hpulls
  refine ⟨⟨_, hmore.symm⟩, ?_⟩
  have hrun := Plan.runActions_stopped plan.ending (actions ++ [.pull]) more
    ⟨#[], 0, 0, plan.ending⟩
    (h.uncancelled (by omega)) (by rw [Nat.zero_add, hpolls]; exact h.stops)
  rw [List.append_assoc, List.append_assoc] at hrun
  rw [Plan.run, hmore]
  refine hrun.trans ?_
  rw [← hpulls, ← hpolls]
  simp [Report.after, pollsOf, pullsOf]

/-- **Preemption.** Let a scan be asked to stop at its `k`-th poll and not before. If there are more
    items than go before that poll, and the scan does not fail at one of them, then it is preempted.
    It has made `k` polls and has taken one item more than go before the poll, which may be one that
    it would fail at. It has handed out exactly what goes with the items before, and has not
    reported that all is done. Otherwise it has done the same as if it had not been asked to stop. A
    scan that completes has polled once for every round of its items, the last of which need not be
    full. -/
theorem preemption_is_clean (items : List TokenItem) :
    let plan := planOf s index settings true items
    let full := plan.run never
    (∀ (cancel : Nat → Bool) (k : Nat), StopsFirstAt cancel k →
      let report := plan.run cancel
      let ahead := (k - 1) * settings.pollEvery
      (ahead < items.length ∧ ¬full.FailsWithin ahead →
        report.ending = .ok .preempted ∧ report.polls = k ∧ report.pulled = ahead + 1 ∧
          report.flushes.toList = flushesOf (actionsOver ahead plan.actions.toList) ∧
          report.flushes.toList <+: full.flushes.toList ∧
          ∀ f ∈ report.flushes.toList, f.progress.isComplete = false) ∧
      (¬(ahead < items.length ∧ ¬full.FailsWithin ahead) → report = full)) ∧
    ∀ cancel : Nat → Bool, (plan.run cancel).ending = .ok .completed →
      (plan.run cancel).polls = (items.length + settings.pollEvery - 1) / settings.pollEvery := by
  intro plan full
  refine ⟨fun cancel k hstop => ?_, fun cancel hcompleted => ?_⟩
  · intro report ahead
    refine ⟨fun ⟨hahead, hok⟩ => ?_, fun hlate => ?_⟩
    · have hlength : (items.take ahead).length = ahead :=
        List.length_take_of_le (Nat.le_of_lt hahead)
      have hitems : items = items.take ahead ++ items[ahead] :: items.drop (ahead + 1) := by simp
      have hbefore : ∀ i ∈ items.take ahead, itemFailure s index i = none := by
        refine itemFailure_of_not_failsWithin s index settings _ (items.drop ahead) ?_
        rwa [hlength, List.take_append_drop]
      have hstopped := run_of_stop s index settings hstop _ items[ahead] (items.drop (ahead + 1))
        hlength hbefore
      rw [← hitems, hlength] at hstopped
      obtain ⟨⟨more, hmore⟩, hrun⟩ := hstopped
      have hrun : report = _ := hrun
      have hflushes : report.flushes.toList
        = flushesOf (actionsOver ahead plan.actions.toList) := by
        rw [hrun]
      have hending : report.ending = .ok .preempted := by rw [hrun]
      refine ⟨hending, by rw [hrun], by rw [hrun], hflushes, ⟨flushesOf more, ?_⟩, ?_⟩
      · rw [hflushes, flushes_run_never, ← flushesOf_append, hmore]
      · refine (climbs_planOf settings s index true items).not_complete ?_
        rw [show (planOf s index settings true items).run cancel = report from rfl, hending]
        simp
    · -- The poll that would stop the scan comes after its last item, or after a failing one.
      refine run_of_late_stop s index settings hstop ?_
      by_cases hshort : items.length ≤ ahead
      · exact .inl hshort
      · exact .inr (Classical.not_not.mp fun hok => hlate ⟨Nat.lt_of_not_le hshort, hok⟩)
  · obtain ⟨hend, hpolls⟩ := Plan.polls_of_completed plan hcompleted
    have hpaced : plan.Paced settings items.length := paced_planOf s index settings items
    rw [hpolls, hpaced.polls, hpaced.pulls_of_completed hend]
    rfl

/-- A scan that would fail at its second item is stopped by a poll at that item instead. -/
theorem poll_comes_before_failure :
    let s := Source.ofText "ab"
    let plan := planOf s (.build s) ⟨1, 48, 4⟩ true [.ok (.text ⟨1, 1⟩ 1), .error "unknown token"]
    (plan.run never).ending = .error (.malformed "unknown token") ∧
      (plan.run (· == 2)).ending = .ok .preempted ∧ (plan.run (· == 2)).pulled = 2 := by
  intro s plan
  have hstop : StopsFirstAt (· == 2) 2 := ⟨by decide, rfl, fun j hpos hlt => by simp; omega⟩
  have hok : ¬(plan.run never).FailsWithin 1 := fun h => absurd h.2 (by decide +kernel)
  have hreport := (preemption_is_clean s (.build s) ⟨1, 48, 4⟩
    [.ok (.text ⟨1, 1⟩ 1), .error "unknown token"]).1 (· == 2) 2 hstop
  obtain ⟨hending, -, hpulled, -⟩ := hreport.1 ⟨by decide, hok⟩
  have hfirst : itemFailure s (.build s) (.ok (.text ⟨1, 1⟩ 1)) = none := by decide +kernel
  refine ⟨?_, hending, hpulled⟩
  rw [ending_run_never, ending_planOf, if_pos rfl, Scanner.endingOver, List.findSome?_cons, hfirst]
  rfl

end XmlHighlight
