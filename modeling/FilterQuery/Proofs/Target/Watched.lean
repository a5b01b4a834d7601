import FilterQuery.Target.Record
import FilterQuery.Proofs.Target.Related

/-!
# Watched runs

A target is watched by a log: `watched t` does what `t` does, and keeps for every call the numbers
of the calls that have made its arguments and the error with which `t` has refused it, if it has.
The values and states of a watched run are those of the run itself, and its log is compared with
what the recorder, which refuses nothing, is asked for the same query.

* `erasing` relates a watched run to the run of the target itself: forgetting the numbers and the
  log gives that run.
* `following` relates a watched run to the run of the recorder: as long as nothing is refused, the
  calls and the numbers are the same, and at the first refusal the watched run stops.

Both are relations of lowerings, so it is enough to look at one operation of the target
(`Target.Related.apply`). The main result is `watched_apply`.
-/

set_option autoImplicit false

namespace FilterQuery

/-! ## Logs -/

/-- A call on a target, with the error with which the target has refused it. -/
structure Event where
  call : Call Nat Nat
  refusal : Option TargetError
  deriving DecidableEq, Repr

/-- The calls on a target so far. -/
abbrev Log := List Event

namespace Log

/-- The calls of a log without their outcomes. -/
def calls (log : Log) : List (Call Nat Nat) := log.map Event.call

/-- No call has been refused. -/
def Clean (log : Log) : Prop := ∀ event ∈ log, event.refusal = none

theorem calls_append (l m : Log) : calls (l ++ m) = calls l ++ calls m :=
  List.map_append ..

theorem length_calls (log : Log) : (calls log).length = log.length :=
  List.length_map ..

theorem Clean.nil : Clean [] := List.forall_mem_nil _

theorem Clean.concat {log : Log} (h : log.Clean) (c : Call Nat Nat) :
    Clean (log ++ [⟨c, none⟩]) := by
  intro event hevent
  rcases List.mem_append.mp hevent with hold | hnew
  · exact h event hold
  · rw [List.mem_singleton.mp hnew]

end Log

namespace Target

variable {σ ε κ : Type}

/-! ## The watched target -/

section Watch

variable {α : Type}

/-- Does an operation that cannot fail, logs it, and numbers its result. -/
def watch (c : Call Nat Nat) (x : StateM σ α) : StateM (σ × Log) (α × Nat) := fun s =>
  (((x s.1).1, s.2.length), ((x s.1).2, s.2 ++ [⟨c, none⟩]))

/-- Does an operation that may fail, logs it with its outcome, and numbers its result. -/
def watchAttempt (c : Call Nat Nat) (x : StateM σ (Except TargetError α)) :
    StateM (σ × Log) (Except TargetError (α × Nat)) := fun s =>
  match x s.1 with
  | (.ok a, s') => (.ok (a, s.2.length), (s', s.2 ++ [⟨c, none⟩]))
  | (.error e, s') => (.error e, (s', s.2 ++ [⟨c, some e⟩]))

/-- Does an operation without a result, and logs it. -/
def watchOnly (c : Call Nat Nat) (x : StateM σ Unit) : StateM (σ × Log) Unit := fun s =>
  ((), (watch c x s).2)

end Watch

/-- The target that does what `t` does and logs it. Its expressions and conditions are those of
`t`, each with the number of the call that has made it. -/
def watched (t : Target σ ε κ) : Target (σ × Log) (ε × Nat) (κ × Nat) where
  field p j := watchAttempt (.field p j) (t.field p j)
  literal l := watch (.literal l) (t.literal l)
  aggregate f e := watchAttempt (.aggregate f (e.map Prod.snd)) (t.aggregate f (e.map Prod.fst))
  compare o l r := watch (.compare o l.2 r.2) (t.compare o l.1 r.1)
  isNull e := watch (.isNull e.2) (t.isNull e.1)
  isNotNull e := watch (.isNotNull e.2) (t.isNotNull e.1)
  between e l h := watch (.between e.2 l.2 h.2) (t.between e.1 l.1 h.1)
  isIn e vs := watch (.isIn e.2 (vs.map Prod.snd)) (t.isIn e.1 (vs.map Prod.fst))
  both l r := watch (.both l.2 r.2) (t.both l.1 r.1)
  either l r := watch (.either l.2 r.2) (t.either l.1 r.1)
  always := watch .always t.always
  groupBy es := watchOnly (.groupBy (es.map Prod.snd)) (t.groupBy (es.map Prod.fst))
  having c := watchOnly (.having c.2) (t.having c.1)

/-- Applies functions to the expressions and the conditions that a query has become. -/
def Lowered.map {ε' κ' : Type} (f : ε → ε') (g : κ → κ') (l : Lowered ε κ) : Lowered ε' κ' :=
  ⟨g l.condition, g l.having, l.grouping.map f⟩

/-! ## Outcomes -/

/-- Outcomes agree: their results are related, or their errors are the same. -/
inductive Agree {α β : Type} (R : α → β → Prop) :
    Except ApplyError α → Except ApplyError β → Prop where
  | ok {a : α} {b : β} (h : R a b) : Agree R (.ok a) (.ok b)
  | error (e : ApplyError) : Agree R (.error e) (.error e)

/-- Outcomes that agree with the same one agree with each other. -/
theorem Agree.meet {α β γ : Type} {R : α → γ → Prop} {S : β → γ → Prop} {T : α → β → Prop}
    {x : Except ApplyError α} {y : Except ApplyError β} {z : Except ApplyError γ}
    (hx : Agree R x z) (hy : Agree S y z) (h : ∀ {a b c}, R a c → S b c → T a b) : Agree T x y := by
  cases hx with
  | ok hac =>
      cases hy with
      | ok hbc => exact .ok (h hac hbc)
  | error e =>
      cases hy
      exact .error e

/-- Values related by a function are its images. -/
theorem map_eq_of_forall₂ {α β : Type} {f : α → β} {xs : List α} {ys : List β}
    (h : List.Forall₂ (fun x y => f x = y) xs ys) : xs.map f = ys := by
  rw [← List.forall₂_eq_eq_eq]
  exact List.forall₂_map_left_iff.mpr h

theorem Lowered.Related.map_eq {ε' κ' : Type} {f : ε → ε'} {g : κ → κ'} {l : Lowered ε κ}
    {l' : Lowered ε' κ'} (h : Lowered.Related (fun x y => f x = y) (fun x y => g x = y) l l') :
    l.map f g = l' := by
  rw [Lowered.map, h.condition, h.having, map_eq_of_forall₂ h.grouping]

theorem Agree.map_eq {ε' κ' : Type} {f : ε → ε'} {g : κ → κ'}
    {out : Except ApplyError (Lowered ε κ)} {out' : Except ApplyError (Lowered ε' κ')}
    (h : Agree (Lowered.Related (fun x y => f x = y) (fun x y => g x = y)) out out') :
    out.map (Lowered.map f g) = out' := by
  cases h with
  | ok h => exact congrArg Except.ok h.map_eq
  | error e => rfl

/-! ## Watching changes nothing -/

/-- Forgetting the log on the left gives the run on the right. -/
def erasing (σ : Type) : Lowering.Relation (σ × Log) σ where
  Holds R x y := ∀ s log,
    Agree R (x.run.run (s, log)).1 (y.run.run s).1 ∧ (x.run.run (s, log)).2.1 = (y.run.run s).2
  pure h s log := ⟨.ok h, rfl⟩
  fail {_ _ _ e} _ s log := ⟨.error e, rfl⟩
  bind {_ _ _ _ R S x y f g} hx hf s log := by
    have hxy := hx s log
    rw [Lowering.run_bind, Lowering.run_bind]
    generalize x.run.run (s, log) = run at hxy ⊢
    generalize y.run.run s = run' at hxy ⊢
    obtain ⟨out, s', log'⟩ := run
    obtain ⟨out', s''⟩ := run'
    obtain ⟨hout, rfl⟩ := hxy
    cases hout with
    | ok hR => exact hf _ _ hR s' log'
    | error e => exact ⟨.error e, rfl⟩

section Erasing

variable {α : Type}

theorem erasing_step (c : Call Nat Nat) (x : StateM σ α) :
    (erasing σ).Holds (fun a b => a.1 = b) (.step (watch c x)) (.step x) :=
  fun _ _ => ⟨.ok rfl, rfl⟩

theorem erasing_attempt (c : Call Nat Nat) (x : StateM σ (Except TargetError α)) :
    (erasing σ).Holds (fun a b => a.1 = b) (.attempt (watchAttempt c x)) (.attempt x) := by
  intro s log
  simp only [Lowering.attempt, watchAttempt, ExceptT.run, StateT.run]
  rcases x s with ⟨a | a, s'⟩
  · exact ⟨.error _, rfl⟩
  · exact ⟨.ok rfl, rfl⟩

/-- The operations of a watched target are those of the target. -/
theorem erasing_watched (t : Target σ ε κ) :
    Related (erasing σ) (fun a b => a.1 = b) (fun a b => a.1 = b) (watched t) t where
  field p j := erasing_attempt _ _
  literal l := erasing_step _ _
  aggregateAll f := erasing_attempt _ _
  aggregate f := by
    rintro e _ rfl
    exact erasing_attempt _ _
  compare o := by
    rintro l _ r _ rfl rfl
    exact erasing_step _ _
  isNull := by
    rintro e _ rfl
    exact erasing_step _ _
  isNotNull := by
    rintro e _ rfl
    exact erasing_step _ _
  between := by
    rintro e _ a _ b _ rfl rfl rfl
    exact erasing_step _ _
  isIn := by
    rintro e _ vs vs' rfl hvs
    rw [← map_eq_of_forall₂ hvs]
    exact erasing_step _ _
  both := by
    rintro l _ r _ rfl rfl
    exact erasing_step _ _
  either := by
    rintro l _ r _ rfl rfl
    exact erasing_step _ _
  always := erasing_step _ _
  groupBy := by
    intro es es' hes s log
    rw [← map_eq_of_forall₂ hes]
    exact ⟨.ok trivial, rfl⟩
  having := by
    rintro c _ rfl s log
    exact ⟨.ok trivial, rfl⟩

end Erasing

/-! ## A watched run follows the recorder -/

/-- A watched run and a run of the recorder that have begun with the same calls. Either nothing has
been refused, and the calls and the outcomes are the same, or the watched run has stopped at its
first refusal, among the calls of the recorder. -/
inductive Follows {α β : Type} (R : α → β → Prop) :
    Except ApplyError α × (σ × Log) → Except ApplyError β × Record → Prop where
  | kept {out : Except ApplyError α} {out' : Except ApplyError β} {s : σ} {log : Log}
      {record : Record} (hclean : log.Clean) (hcalls : log.calls = record)
      (hout : Agree R out out') : Follows R (out, (s, log)) (out', record)
  | stopped {out' : Except ApplyError β} {s : σ} {before : Log} {c : Call Nat Nat}
      {e : TargetError} {record : Record} (hclean : before.Clean)
      (hcalls : Log.calls (before ++ [⟨c, some e⟩]) <+: record) :
      Follows R (.error (.target e), (s, before ++ [⟨c, some e⟩])) (out', record)

/-- A run of the recorder from a record only adds calls, and meets no refusal; what it gives stands
in the relation. -/
inductive Records {α β : Type} (R : α → β → Prop) (record : Record) :
    Except ApplyError β × Record → Prop where
  | ok {a : α} {b : β} {record' : Record} (hcalls : record <+: record') (h : R a b) :
      Records R record (.ok b, record')
  | error {e : ApplyError} {record' : Record} (hcalls : record <+: record')
      (he : ∀ x, e ≠ .target x) : Records R record (.error e, record')

section Following

variable {α β : Type} {R : α → β → Prop} {record : Record} {run : Except ApplyError β × Record}

theorem Records.calls (h : Records R record run) : record <+: run.2 := by
  cases h with
  | ok hcalls _ => exact hcalls
  | error hcalls _ => exact hcalls

theorem Records.no_refusal (h : Records R record run) (e : TargetError) :
    run.1 ≠ .error (.target e) := by
  cases h with
  | ok _ _ => exact nofun
  | error _ he =>
      intro heq
      exact he e (Except.error.inj heq)

/-- What follows a run of the recorder starts from a larger record. -/
theorem Records.imp {β' : Type} {S : β' → β → Prop} {record' : Record}
    (h : Records R record' run) (hrecord : record <+: record')
    (hRS : ∀ a b, R a b → ∃ a', S a' b) : Records S record run := by
  cases h with
  | ok hcalls hR =>
      obtain ⟨a', hS⟩ := hRS _ _ hR
      exact .ok (hrecord.trans hcalls) hS
  | error hcalls he => exact .error (hrecord.trans hcalls) he

end Following

/-- Started with the same calls and no refusal, the run on the left follows the one on the right. -/
def following (σ : Type) : Lowering.Relation (σ × Log) Record where
  Holds R x y := (∀ record, Records R record (y.run.run record)) ∧
    ∀ s (log : Log), log.Clean → Follows R (x.run.run (s, log)) (y.run.run log.calls)
  pure h := ⟨fun _ => .ok List.prefix_rfl h, fun _ _ hlog => .kept hlog rfl (.ok h)⟩
  fail he := ⟨fun _ => .error List.prefix_rfl he, fun _ _ hlog => .kept hlog rfl (.error _)⟩
  bind {_ _ _ _ R S x y f g} hx hf := by
    -- the recorder goes on from every record, also where the watched run has stopped
    have hrecords : ∀ record, Records S record ((y >>= g).run.run record) := by
      intro record
      have hy := hx.1 record
      rw [Lowering.run_bind]
      generalize y.run.run record = run at hy ⊢
      cases hy with
      | ok hcalls hR => exact ((hf _ _ hR).1 _).imp hcalls fun a b h => ⟨a, h⟩
      | error hcalls he => exact .error hcalls he
    refine ⟨hrecords, fun s log hlog => ?_⟩
    have hxy := hx.2 s log hlog
    have hy := hx.1 log.calls
    rw [Lowering.run_bind, Lowering.run_bind]
    generalize x.run.run (s, log) = run at hxy ⊢
    generalize y.run.run log.calls = run' at hxy hy ⊢
    cases hxy with
    | kept hclean hcalls hout =>
        subst hcalls
        cases hout with
        | ok hR => exact (hf _ _ hR).2 _ _ hclean
        | error e => exact .kept hclean rfl (.error e)
    | stopped hclean hcalls =>
        cases hy with
        | ok _ hR => exact .stopped hclean (hcalls.trans ((hf _ _ hR).1 _).calls)
        | error _ _ => exact .stopped hclean hcalls

section Watched

variable {α : Type}

theorem following_step [Nonempty α] (c : Call Nat Nat) (x : StateM σ α) :
    (following σ).Holds (fun a b => a.2 = b) (.step (watch c x)) (.step (note c)) := by
  obtain ⟨a⟩ := ‹Nonempty α›
  refine ⟨fun record => ?_, fun s log hlog => ?_⟩
  · exact .ok (a := (a, record.length)) (List.prefix_append ..) rfl
  · exact .kept (hlog.concat c) (Log.calls_append ..) (.ok (Log.length_calls log).symm)

theorem following_attempt [Nonempty α] (c : Call Nat Nat)
    (x : StateM σ (Except TargetError α)) :
    (following σ).Holds (fun a b => a.2 = b) (.attempt (watchAttempt c x))
      (.attempt (noteUnless none c)) := by
  obtain ⟨a⟩ := ‹Nonempty α›
  refine ⟨fun record => ?_, fun s log hlog => ?_⟩
  · exact .ok (a := (a, record.length)) (List.prefix_append ..) rfl
  · simp only [Lowering.attempt, watchAttempt, noteUnless, ExceptT.run, StateT.run]
    rcases x s with ⟨e | b, s'⟩
    · have hcalls : Log.calls (log ++ [⟨c, some e⟩]) = log.calls ++ [c] := Log.calls_append ..
      exact .stopped hlog (hcalls ▸ List.prefix_rfl)
    · exact .kept (hlog.concat c) (Log.calls_append ..) (.ok (Log.length_calls log).symm)

theorem following_only (c : Call Nat Nat) (x : StateM σ Unit) :
    (following σ).Holds (fun _ _ => True) (.step (watchOnly c x))
      (.step (do let _ ← note c)) := by
  refine ⟨fun record => .ok (a := ()) (List.prefix_append ..) trivial, fun s log hlog => ?_⟩
  exact .kept (hlog.concat c) (Log.calls_append ..) (.ok trivial)

/-- The operations of a watched target follow those of the recorder. -/
theorem following_watched [Nonempty ε] [Nonempty κ] (t : Target σ ε κ) :
    Related (following σ) (fun a b => a.2 = b) (fun a b => a.2 = b) (watched t)
      (recorder .none) where
  field p j := following_attempt _ _
  literal l := following_step _ _
  aggregateAll f := following_attempt _ _
  aggregate f := by
    rintro e _ rfl
    exact following_attempt _ _
  compare o := by
    rintro l _ r _ rfl rfl
    exact following_step _ _
  isNull := by
    rintro e _ rfl
    exact following_step _ _
  isNotNull := by
    rintro e _ rfl
    exact following_step _ _
  between := by
    rintro e _ a _ b _ rfl rfl rfl
    exact following_step _ _
  isIn := by
    rintro e _ vs vs' rfl hvs
    rw [← map_eq_of_forall₂ hvs]
    exact following_step _ _
  both := by
    rintro l _ r _ rfl rfl
    exact following_step _ _
  either := by
    rintro l _ r _ rfl rfl
    exact following_step _ _
  always := following_step _ _
  groupBy := by
    intro es es' hes
    rw [← map_eq_of_forall₂ hes]
    exact following_only _ _
  having := by
    rintro c _ rfl
    exact following_only _ _

end Watched

/-! ## Whole runs -/

/-- **Targets are independent of each other.** Watching a run does not change it, and the calls of
the run begin the calls of the recorder for the same query. Without a refusal these are all calls,
and the run ends as the recorder's does: with the numbers of the same calls, or with the same error,
which is not one of a target. A refusal is of the last call, and the run ends with it. -/
theorem watched_apply (t : Target σ ε κ) (s : σ) (q : Query) :
    let run := ((watched t).apply q).run.run (s, [])
    let outcome := run.1
    let log := run.2.2
    let recorded := ((recorder .none).apply q).run.run []
    (outcome.map (Lowered.map Prod.fst Prod.fst), run.2.1) = (t.apply q).run.run s ∧
    log.calls <+: recorded.2 ∧
    (log.Clean → log.calls = recorded.2 ∧
      outcome.map (Lowered.map Prod.snd Prod.snd) = recorded.1 ∧
      ∀ e, recorded.1 ≠ .error (.target e)) ∧
    (¬ log.Clean → ∃ before c e, log = before ++ [⟨c, some e⟩] ∧ Log.Clean before ∧
      outcome = .error (.target e)) := by
  intro run outcome log recorded
  -- the results of operations that cannot fail show that there are expressions and conditions
  have : Nonempty ε := ⟨(t.literal (.boolean true) s).1⟩
  have : Nonempty κ := ⟨(t.always s).1⟩
  obtain ⟨hvalues, hstate⟩ := (erasing_watched t).apply q s []
  have hrecords := ((following_watched t).apply q).1 []
  have hfollows := ((following_watched t).apply q).2 s [] Log.Clean.nil
  refine ⟨Prod.ext hvalues.map_eq hstate, ?_⟩
  change Follows _ run recorded at hfollows
  change Records _ [] recorded at hrecords
  simp only [outcome, log]
  clear_value run recorded
  cases hfollows with
  | kept hclean hcalls hout =>
      refine ⟨hcalls ▸ List.prefix_rfl, fun _ => ⟨hcalls, hout.map_eq, hrecords.no_refusal⟩, ?_⟩
      exact fun hnot => absurd hclean hnot
  | stopped hbefore hcalls =>
      refine ⟨hcalls, fun hclean => ?_, fun _ => ⟨_, _, _, rfl, hbefore, rfl⟩⟩
      exact absurd (hclean _ (List.mem_append_right _ (List.mem_singleton_self _))) nofun

end Target

end FilterQuery
