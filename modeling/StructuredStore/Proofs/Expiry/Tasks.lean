import StructuredStore.Operation
import StructuredStore.Proofs.Expiry.Losses

/-!
# Operations in atomic steps

No operation holds the locks of two keys.  Setting an expiry writes the frame
under the lock of the key and lists the key under that of the bucket; a sweep
drains each bucket, settles each name and gives it back under a lock of its own.
Between these steps those of other clients may come.  All other operations are
one step.

Main definitions:

- `Task`: what a client is in the middle of.
- `Task.begin`, `Task.next`: the steps that an operation consists of.
- `System`, `System.run`: clients that take their steps in any order.

Main results:

- `Task.snd_run_begin_finish`, `Task.snd_run_next_finish`: the steps of an operation do
  what the operation does.
- `System.run_alone`: so does a client whose steps no others come between.
-/

namespace StructuredStore.Expiry

open Engine Store

/-! ## Tasks -/

/-- What a client is in the middle of. -/
inductive Task where
  | idle
  /-- An expiry was written, and its key is next to be listed. -/
  | enlist (bucket key : String)
  /-- A bucket is next to be drained, and others are due behind it. -/
  | drain (now : Instant) (bucket : String) (due : List String)
  /-- A name out of a drained bucket is next to be settled, and behind it the
  other entries. -/
  | settle (now : Instant) (bucket name : String) (entries : List Value) (due : List String)
  /-- A name is next to go back, since its expiry has not come. -/
  | giveBack (now : Instant) (bucket name : String) (entries : List Value) (due : List String)
deriving DecidableEq

namespace Task

/-- The task of a sweep in front of the buckets that are due. -/
def sweeping (now : Instant) : List String → Task
  | [] => .idle
  | bucket :: due => .drain now bucket due

/-- The task of a sweep in front of the entries of a drained bucket.  What is no
key is dropped, which takes no lock. -/
def settling (now : Instant) (bucket : String) (due : List String) : List Value → Task
  | [] => sweeping now due
  | .text name :: entries => .settle now bucket name entries due
  | _ :: entries => settling now bucket due entries

/-- The first step of an operation. -/
def begin (env : Environment) : Operation → StoreM Task
  | .expireAt key instant => write env key instant
  | .expireIn key span =>
      match env.now.add? span with
      | none => throw .overflow
      | some instant => write env key instant
  | .sweep now => scan env.width now
  | .sweepNow => scan env.width env.now
  | op => do
      let _ ← op.perform env
      return .idle
where
  /-- The expiry is written, if it lies in the future. -/
  write (env : Environment) (key : String) (instant : Instant) : StoreM Task := do
    if instant ≤ env.now then return .idle
    stamp key instant
    return .enlist (env.width.bucket instant) key
  /-- The buckets that are due are looked up. -/
  scan (width : BucketWidth) (now : Instant) : StoreM Task := do
    let limit := Key.bucketOrdinal (Int64.ofInt (width.ceil now))
    let due ← Engine.visitUnder (Utf8.encode Key.bucketStem) (collectDue limit) []
    return sweeping now due.reverse

/-- The next step of a client. -/
def next (width : BucketWidth) : Task → StoreM Task
  | .idle => return .idle
  | .enlist bucket key => do
      Expiry.enlist bucket key
      return .idle
  | .drain now bucket due => do
      match ← attempt (Deque.takeAll bucket) with
      | .ok entries => return settling now bucket due entries
      | .error _ => return sweeping now due
  | .settle now bucket name entries due => do
      match ← attempt (Expiry.settle width now bucket name) with
      | .ok .notDue => return .giveBack now bucket name entries due
      | _ => return settling now bucket due entries
  | .giveBack now bucket name entries due => do
      let _ ← attempt (Expiry.enlist bucket name)
      return settling now bucket due entries

/-- The task that a step leads to; if the step fails, the operation is over. -/
def ofOutcome : Except StoreError Task → Task
  | .ok task => task
  | .error _ => .idle

/-! ## What is left of an operation -/

/-- All steps that a client still has to take, one after the other. -/
def finish (width : BucketWidth) : Task → StoreM Unit
  | .idle => pure ()
  | .enlist bucket key => Expiry.enlist bucket key
  | .drain now bucket due => do
      let _ ← sweepBuckets width now (bucket :: due)
  | .settle now bucket name entries due => do
      let _ ← settleEntries width now bucket (.text name :: entries)
      let _ ← sweepBuckets width now due
  | .giveBack now bucket name entries due => do
      let _ ← attempt (Expiry.enlist bucket name)
      let _ ← settleEntries width now bucket entries
      let _ ← sweepBuckets width now due

variable (width : BucketWidth) (now : Instant) (engine : Engine)

theorem snd_run_finish_sweeping (due : List String) :
    (((sweeping now due).finish width).run engine).2 =
      ((sweepBuckets width now due).run engine).2 := by
  cases due with
  | nil => rfl
  | cons bucket due => exact snd_run_bind_pure _ _ engine

/-- Behind the entries of a bucket stand the other buckets. -/
theorem snd_run_settleEntries_sweepBuckets (bucket : String) (entries : List Value)
    (due : List String) :
    ((do
        let _ ← settleEntries width now bucket entries
        let _ ← sweepBuckets width now due : StoreM Unit).run engine).2 =
      ((sweepBuckets width now due).run
        ((settleEntries width now bucket entries).run engine).2).2 := by
  obtain ⟨report, left, hrun⟩ := exists_run_settleEntries width now bucket entries engine
  rw [run_bind_ok hrun, hrun]
  exact snd_run_bind_pure _ _ left

/-- What is no key is dropped when its turn comes, too. -/
theorem snd_run_finish_settling (bucket : String) (due : List String) (entries : List Value) :
    (((settling now bucket due entries).finish width).run engine).2 =
      ((sweepBuckets width now due).run
        ((settleEntries width now bucket entries).run engine).2).2 := by
  induction entries with
  | nil => exact snd_run_finish_sweeping width now engine due
  | cons entry entries ih =>
      cases entry with
      | text name => exact snd_run_settleEntries_sweepBuckets width now engine bucket _ due
      | _ =>
          rw [snd_run_settleEntries_cons]
          exact ih

theorem snd_run_finish_giveBack (bucket name : String) (entries : List Value)
    (due : List String) :
    (((giveBack now bucket name entries due).finish width).run engine).2 =
      ((sweepBuckets width now due).run ((settleEntries width now bucket entries).run
        ((Expiry.enlist bucket name).run engine).2).2).2 := by
  rw [finish, run_bind_ok (run_attempt_of_unbroken (unbroken_enlist bucket name) engine)]
  exact snd_run_settleEntries_sweepBuckets width now _ bucket entries due

/-- A step of a task, and then all that are left, are those that were left
before. -/
theorem snd_run_next_finish (task : Task) :
    ((task.next width >>= finish width).run engine).2 = ((task.finish width).run engine).2 := by
  cases task with
  | idle => rfl
  | enlist bucket key =>
      rw [next, run_bind, run_bind]
      rcases henlist : (Expiry.enlist bucket key).run engine with ⟨_ | _, left⟩
      · rw [finish, henlist]
      · rw [finish, henlist]
        rfl
  | drain now bucket due =>
      rw [next, finish, snd_run_bind_pure, bind_assoc]
      rcases htake : (Deque.takeAll bucket).run engine with ⟨e | entries, left⟩
      · have hbucket : (sweepBucket width now bucket).run engine = (.error e, left) :=
          run_bind_error htake
        by_cases hbroken : ∃ cause, e = .aborted cause
        · obtain ⟨cause, rfl⟩ := hbroken
          rw [run_bind_error (run_attempt_of_aborted htake), run_sweepBuckets_cons_broken hbucket]
        · have hnoted (cause : Abort) (h : e = .aborted cause) : False := hbroken ⟨cause, h⟩
          rw [run_bind_ok (run_attempt_of_not_aborted htake fun cause h =>
              hnoted cause (Except.error.inj h)),
            snd_run_sweepBuckets_cons hbucket fun cause h => hnoted cause (Except.error.inj h)]
          exact snd_run_finish_sweeping width now left due
      · obtain ⟨report, hbucket⟩ : ∃ report, (sweepBucket width now bucket).run engine =
            (.ok report, ((settleEntries width now bucket entries).run left).2) :=
          exists_run_sweepBucket htake
        rw [run_bind_ok (run_attempt_of_not_aborted htake nofun),
          snd_run_sweepBuckets_cons hbucket nofun]
        exact snd_run_finish_settling width now left bucket due entries
  | settle now bucket name entries due =>
      rw [next, finish, snd_run_settleEntries_sweepBuckets, snd_run_settleEntries_cons,
        snd_run_settleEntry_text, bind_assoc,
        run_bind_ok (run_attempt_of_unbroken (unbroken_settle width now bucket name) engine)]
      rcases hsettle : (Expiry.settle width now bucket name).run engine with ⟨e | outcome, left⟩
      · exact snd_run_finish_settling width now left bucket due entries
      · cases outcome with
        | notDue => exact snd_run_finish_giveBack width now left bucket name entries due
        | _ => exact snd_run_finish_settling width now left bucket due entries
  | giveBack now bucket name entries due =>
      rw [next, bind_assoc,
        run_bind_ok (run_attempt_of_unbroken (unbroken_enlist bucket name) engine),
        snd_run_finish_giveBack]
      exact snd_run_finish_settling width now _ bucket due entries

/-- Writing an expiry and listing its key, if it lies in the future, set it. -/
theorem snd_run_write_finish (env : Environment) (key : String) (instant : Instant) :
    ((begin.write env key instant >>= finish env.width).run engine).2 =
      ((setAt env.width env.now key instant).run engine).2 := by
  unfold begin.write setAt
  by_cases hpast : instant ≤ env.now
  · rw [if_pos hpast, if_pos hpast]
    rfl
  · rw [if_neg hpast, if_neg hpast, bind_assoc, run_bind, run_bind]
    rcases (stamp key instant).run engine with ⟨_ | _, stamped⟩
    · rfl
    · exact (snd_run_bind_pure _ _ stamped).symm

/-- Looking up the buckets that are due and going through them sweep. -/
theorem snd_run_scan_finish :
    ((begin.scan width now >>= finish width).run engine).2 =
      ((sweep width now).run engine).2 := by
  unfold begin.scan sweep
  rw [bind_assoc, run_bind, run_bind]
  rcases (visitUnder _ _ _).run engine with ⟨_ | due, scanned⟩
  · rfl
  · exact snd_run_finish_sweeping width now scanned due.reverse

/-- The first step of an operation, and then all that are left, do what the
operation does. -/
theorem snd_run_begin_finish (env : Environment) (op : Operation) :
    ((begin env op >>= finish env.width).run engine).2 = ((op.perform env).run engine).2 := by
  have hwhole : ∀ op : Operation,
      (((do
          let _ ← op.perform env
          return Task.idle : StoreM Task) >>= finish env.width).run engine).2 =
        ((op.perform env).run engine).2 := by
    intro op
    rw [bind_assoc]
    exact snd_run_bind_pure _ _ engine
  cases op with
  | expireAt key instant =>
      rw [Operation.perform, run_map]
      exact snd_run_write_finish engine env key instant
  | expireIn key span =>
      rw [begin, Operation.perform, run_map, setIn]
      cases env.now.add? span with
      | none => rfl
      | some instant => exact snd_run_write_finish engine env key instant
  | sweep now =>
      rw [Operation.perform, run_map]
      exact snd_run_scan_finish env.width now engine
  | sweepNow =>
      rw [Operation.perform, run_map]
      exact snd_run_scan_finish env.width env.now engine
  | _ => exact hwhole _

end Task

/-! ## Clients -/

/-- Clients at work on one store. -/
structure System (ι : Type) where
  engine : Engine
  tasks : ι → Task

/-- What happens next. -/
inductive Action (ι : Type) where
  /-- A client that is idle begins an operation. -/
  | start (client : ι) (now : Instant) (op : Operation)
  /-- A client takes its next step. -/
  | proceed (client : ι)

namespace Action

variable {ι : Type}

/-- The operation that an action begins. -/
def operation? : Action ι → Option Operation
  | .start _ _ op => some op
  | .proceed _ => none

/-- The expiry that an action asks for. -/
def expiry? : Action ι → Option Instant
  | .start _ now op => op.expiry? now
  | .proceed _ => none

/-- Whether an action is taken under the lock of a key.  The look for the buckets
that are due, with which a sweep begins, is not. -/
def isLocked : Action ι → Bool
  | .start _ _ op => op.key?.isSome
  | .proceed _ => true

end Action

namespace System

variable {ι : Type}

/-- The operations that actions begin. -/
def operations (actions : List (Action ι)) : List Operation :=
  actions.filterMap Action.operation?

theorem operations_cons (action : Action ι) (actions : List (Action ι)) :
    operations (action :: actions) = action.operation?.toList ++ operations actions := by
  rw [operations, List.filterMap_cons]
  cases action.operation? <;> rfl

/-- All clients are idle, and the store is empty. -/
def initial : System ι :=
  ⟨.ofTable .empty, fun _ => .idle⟩

variable [DecidableEq ι]

/-- A client takes a step. -/
def act (system : System ι) (client : ι) (step : StoreM Task) : System ι :=
  let (outcome, engine) := step.run system.engine
  ⟨engine, Function.update system.tasks client (.ofOutcome outcome)⟩

theorem act_of_run {engine left : Engine} {step : StoreM Task}
    {outcome : Except StoreError Task} (h : step.run engine = (outcome, left)) (tasks : ι → Task)
    (client : ι) :
    act ⟨engine, tasks⟩ client step =
      ⟨left, Function.update tasks client (.ofOutcome outcome)⟩ := by
  rw [act, h]

/-- What an action leads to.  A client that is busy begins nothing. -/
def step (width : BucketWidth) (providers : Providers) (system : System ι) :
    Action ι → System ι
  | .start client now op =>
      if system.tasks client = .idle then system.act client (Task.begin ⟨now, width, providers⟩ op)
      else system
  | .proceed client => system.act client ((system.tasks client).next width)

/-- What actions lead to, one after the other. -/
def run (width : BucketWidth) (providers : Providers) (system : System ι)
    (actions : List (Action ι)) : System ι :=
  actions.foldl (step width providers) system

/-! ## A client alone -/

variable {width : BucketWidth} {providers : Providers} {client : ι} {task : Task}

/-- Whether a client in the middle of a task that goes on alone ends it. -/
def Finishes (width : BucketWidth) (providers : Providers) (client : ι) (task : Task) : Prop :=
  ∀ engine tasks, tasks client = task → ∃ count,
    run width providers ⟨engine, tasks⟩ (List.replicate count (.proceed client)) =
      ⟨((task.finish width).run engine).2, Function.update tasks client .idle⟩

theorem finishes_idle : Finishes width providers client .idle := by
  intro engine tasks htask
  refine ⟨0, ?_⟩
  rw [← htask, Function.update_eq_self, htask]
  rfl

/-- A task ends if what its next step leads to does. -/
theorem finishes_of_next
    (h : ∀ engine next left, (task.next width).run engine = (.ok next, left) →
      Finishes width providers client next) : Finishes width providers client task := by
  rintro engine tasks rfl
  have hfinish := (tasks client).snd_run_next_finish width engine
  rcases hnext : ((tasks client).next width).run engine with ⟨e | next, left⟩
  · refine ⟨1, ?_⟩
    rw [run_bind_error hnext] at hfinish
    rw [← hfinish]
    exact act_of_run hnext tasks client
  · obtain ⟨count, hcount⟩ := h engine next left hnext left (Function.update tasks client next)
      (Function.update_self client next tasks)
    refine ⟨count + 1, ?_⟩
    rw [run_bind_ok hnext] at hfinish
    rw [Function.update_idem] at hcount
    rw [← hfinish, ← hcount, List.replicate_succ, run, List.foldl_cons, step,
      act_of_run hnext tasks client]
    rfl

theorem finishes_enlist (bucket key : String) :
    Finishes width providers client (.enlist bucket key) := by
  apply finishes_of_next
  intro engine next left hnext
  rw [Task.next, run_bind] at hnext
  rcases henlist : (enlist bucket key).run engine with ⟨e | _, _⟩ <;> rw [henlist] at hnext
  · cases hnext
  · cases hnext
    exact finishes_idle

variable {now : Instant} {bucket : String} {due : List String}

theorem finishes_giveBack {entries : List Value} (name : String)
    (hrest : Finishes width providers client (.settling now bucket due entries)) :
    Finishes width providers client (.giveBack now bucket name entries due) := by
  apply finishes_of_next
  intro engine next left hnext
  rw [Task.next,
    run_bind_ok (run_attempt_of_unbroken (unbroken_enlist bucket name) engine)] at hnext
  cases hnext
  exact hrest

theorem finishes_settle {entries : List Value} (name : String)
    (hrest : Finishes width providers client (.settling now bucket due entries)) :
    Finishes width providers client (.settle now bucket name entries due) := by
  apply finishes_of_next
  intro engine next left hnext
  rw [Task.next,
    run_bind_ok (run_attempt_of_unbroken (unbroken_settle width now bucket name) engine)] at hnext
  rcases hsettle : (settle width now bucket name).run engine with ⟨e | outcome, _⟩
  · rw [hsettle] at hnext
    cases hnext
    exact hrest
  · rw [hsettle] at hnext
    cases outcome with
    | notDue =>
        cases hnext
        exact finishes_giveBack name hrest
    | _ =>
        cases hnext
        exact hrest

/-- A sweep goes through the entries that it took, and then through the other
buckets. -/
theorem finishes_settling (hdue : Finishes width providers client (.sweeping now due))
    (entries : List Value) :
    Finishes width providers client (.settling now bucket due entries) := by
  induction entries with
  | nil => exact hdue
  | cons entry entries ih =>
      cases entry with
      | text name => exact finishes_settle name ih
      | _ => exact ih

theorem finishes_sweeping (now : Instant) (due : List String) :
    Finishes width providers client (.sweeping now due) := by
  induction due with
  | nil => exact finishes_idle
  | cons bucket due ih =>
      rw [Task.sweeping]
      apply finishes_of_next
      intro engine next left hnext
      rw [Task.next] at hnext
      obtain ⟨_, _, _, hbroken⟩ | hnoted := run_attempt (Deque.takeAll bucket) engine
      · rw [run_bind_error hbroken] at hnext
        cases hnext
      · rw [run_bind_ok hnoted] at hnext
        rcases htake : (Deque.takeAll bucket).run engine with ⟨e | entries, _⟩ <;>
          rw [htake] at hnext <;> cases hnext
        · exact ih
        · exact finishes_settling ih entries

/-- Every task comes to its end. -/
theorem finishes (task : Task) : Finishes width providers client task := by
  cases task with
  | idle => exact finishes_idle
  | enlist bucket key => exact finishes_enlist bucket key
  | drain now bucket due => exact finishes_sweeping now (bucket :: due)
  | settle now bucket name entries due =>
      exact finishes_settle name (finishes_settling (finishes_sweeping now due) entries)
  | giveBack now bucket name entries due =>
      exact finishes_giveBack name (finishes_settling (finishes_sweeping now due) entries)

/-- A client that takes its steps alone does what the operation does. -/
theorem run_alone (system : System ι) (hidle : system.tasks client = .idle) (now : Instant)
    (op : Operation) :
    ∃ count, system.run width providers
        (.start client now op :: List.replicate count (.proceed client)) =
      ⟨((op.perform ⟨now, width, providers⟩).run system.engine).2, system.tasks⟩ := by
  have hfinish := Task.snd_run_begin_finish system.engine ⟨now, width, providers⟩ op
  have hrest : Function.update system.tasks client .idle = system.tasks := by
    rw [← hidle, Function.update_eq_self]
  rcases hbegin : (Task.begin ⟨now, width, providers⟩ op).run system.engine with ⟨e | task, left⟩
  · refine ⟨0, ?_⟩
    rw [run_bind_error hbegin] at hfinish
    rw [← hfinish, List.replicate_zero, run, List.foldl_cons, List.foldl_nil, step, if_pos hidle,
      act, hbegin]
    exact congrArg (System.mk left) hrest
  · obtain ⟨count, hcount⟩ := @finishes ι _ width providers client task left
      (Function.update system.tasks client task) (Function.update_self client task system.tasks)
    refine ⟨count, ?_⟩
    rw [run_bind_ok hbegin] at hfinish
    rw [Function.update_idem, hrest] at hcount
    rw [← hfinish, run, List.foldl_cons, step, if_pos hidle, act, hbegin]
    exact hcount

end System
end StructuredStore.Expiry
