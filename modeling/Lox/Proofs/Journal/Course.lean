import Lox.Proofs.Journal.Growth

/-!
# Well-formed journals

Two things that are to be said of the journal of a computation, besides that classes and methods
are only added. Every fault that is to be caught is followed at once by the end of the innermost
statement, with its message as the thrown value (`Course`). And unless a run is cut short, the
clauses of `try` statements are entered and left as they should be (`Orderly`). `Accounted` collects
all three for a computation with its outcome.
-/

namespace Lox

section Faults

/-- Do statements catch the fault? They never catch an overflow of the stack. -/
def Fault.IsCaught (fault : Fault) (catchFaults : Bool) : Prop :=
  catchFaults = true ∧ fault.kind ≠ .stackOverflow

/-- Does a computation end in a way that the program can go on from? -/
def Outcome.IsTame {α : Type} (catchFaults : Bool) : Outcome α → Prop
  | done .. => True
  | stopped (.thrown _) _ => True
  | stopped (.failed f) _ => f.fault.IsCaught catchFaults
  | stopped .exhausted _ => False
  | stopped .outOfFuel _ => False

/-- Events that neither begin or end a statement nor raise a fault. -/
def Event.IsNeutral : Event → Prop
  | began (.execute _) _ => False
  | began (.evaluate _) _ => True
  | began (.run _) _ => True
  | ended .. => False
  | raised .. => False
  | opened .. => True
  | closed .. => True

/-- The journal leads from some open statements to others, the innermost one first. Whenever a
fault is raised in it, the fault is one to be caught, and the innermost statement ends at once with
the message of the fault as the thrown value. -/
inductive Course (catchFaults : Bool) : List Stmt → List Event → List Stmt → Prop
  | nil
      {stack : List Stmt} :
      Course catchFaults stack [] stack
  | neutral
      {stack stack' : List Stmt}
      {e : Event}
      {journal : List Event}
      (he : e.IsNeutral)
      (hrest : Course catchFaults stack journal stack') :
      Course catchFaults stack (e :: journal) stack'
  | began
      {stack stack' : List Stmt}
      {s : Stmt}
      {m : Machine}
      {journal : List Event}
      (hrest : Course catchFaults (s :: stack) journal stack') :
      Course catchFaults stack (.began (.execute s) m :: journal) stack'
  | ended
      {stack stack' : List Stmt}
      {s : Stmt}
      {signal : Signal}
      {m : Machine}
      {journal : List Event}
      (hrest : Course catchFaults stack journal stack') :
      Course catchFaults (s :: stack) (.ended s signal m :: journal) stack'
  | converted
      {stack stack' : List Stmt}
      {s : Stmt}
      {fault : Fault}
      {t : Thrown}
      {m n : Machine}
      {journal : List Event}
      (hcaught : fault.IsCaught catchFaults)
      (hpayload : t.payload = .string fault.message)
      (hstore : m.SameStore n)
      (hrest : Course catchFaults stack journal stack') :
      Course catchFaults (s :: stack) (.raised fault m :: .ended s (.thrown t) n :: journal) stack'

theorem Course.append
    {catchFaults : Bool}
    {first second third : List Stmt}
    {journal later : List Event}
    (h : Course catchFaults first journal second)
    (hlater : Course catchFaults second later third) :
    Course catchFaults first (journal ++ later) third := by
  induction h with
  | nil => exact hlater
  | neutral he _ ih => exact .neutral he (ih hlater)
  | began _ ih => exact .began (ih hlater)
  | ended _ ih => exact .ended (ih hlater)
  | converted hcaught hpayload hstore _ ih => exact .converted hcaught hpayload hstore (ih hlater)

end Faults

section Clauses

/-- Events that belong to no `try` statement. -/
def Event.IsPlain : Event → Prop
  | began (.execute (.tryBlock ..)) _ => False
  | began .. => True
  | ended (.tryBlock ..) _ _ => False
  | ended .. => True
  | opened .. => False
  | closed .. => False
  | raised .. => True

/-- A clause is entered, something happens, and it is left with a signal. -/
def clauseEvents
    (clause : Clause)
    (statements : List Stmt)
    (m : Machine)
    (inside : List Event)
    (signal : Signal)
    (n : Machine) :
    List Event :=
  .opened clause statements m :: (inside ++ [.closed clause statements signal n])

/-- The events of the clause for thrown values: it is entered if there is one and a value was
thrown, and its signal takes the place of the thrown value. -/
inductive Handled : Option CatchClause → Signal → Signal → List Event → List Event → Prop
  | entered
      {name : String}
      {statements : List Stmt}
      {t : Thrown}
      {m n : Machine}
      {inside : List Event}
      {signal : Signal} :
      Handled (some (.mk name statements)) (.thrown t) signal inside
        (clauseEvents .handler statements m inside signal n)
  | passed
      {handler : Option CatchClause}
      {signal : Signal}
      (h : handler = none ∨ ∀ t, signal ≠ .thrown t) :
      Handled handler signal signal [] []

/-- The signal of a statement whose last clause ended with `last` while `pending` was pending. -/
def Signal.overriddenBy (pending last : Signal) : Signal :=
  if last = .normal then pending else last

/-- The events of the clause that runs in any case: if there is one, it is entered once. -/
inductive Cleaned : Option (List Stmt) → Signal → Signal → List Event → List Event → Prop
  | entered
      {statements : List Stmt}
      {pending last : Signal}
      {m n : Machine}
      {inside : List Event} :
      Cleaned (some statements) pending (pending.overriddenBy last) inside
        (clauseEvents .cleanup statements m inside last n)
  | absent
      {pending : Signal} :
      Cleaned none pending pending [] []

/-- Every `try` statement that is begun goes through its clauses in order, each entered once at
most, with everything that happens inside a clause completed when it is left. -/
inductive Orderly : List Event → Prop
  | nil : Orderly []
  | plain
      {e : Event}
      {journal : List Event}
      (he : e.IsPlain)
      (hrest : Orderly journal) :
      Orderly (e :: journal)
  | attempt
      {body : List Stmt}
      {handler : Option CatchClause}
      {cleanup : Option (List Stmt)}
      {span : Span}
      {m m' n n' : Machine}
      {first pending signal : Signal}
      {inBody inHandler inCleanup handling cleaning journal : List Event}
      (hbody : Orderly inBody)
      (hhandler : Orderly inHandler)
      (hcleanup : Orderly inCleanup)
      (hhandled : Handled handler first pending inHandler handling)
      (hcleaned : Cleaned cleanup pending signal inCleanup cleaning)
      (hrest : Orderly journal) :
      Orderly (.began (.execute (.tryBlock body handler cleanup span)) m ::
        (clauseEvents .body body m' inBody first n' ++ (handling ++ (cleaning ++
          (.ended (.tryBlock body handler cleanup span) signal n :: journal)))))

theorem Orderly.append
    {journal later : List Event}
    (h : Orderly journal)
    (hlater : Orderly later) :
    Orderly (journal ++ later) := by
  induction h with
  | nil => exact hlater
  | plain he _ ih => exact .plain he ih
  | attempt hbody hhandler hcleanup hhandled hcleaned _ _ _ _ ih =>
      simp only [List.cons_append, List.append_assoc]
      exact .attempt hbody hhandler hcleanup hhandled hcleaned ih

end Clauses

/-- What is to be said of a computation that starts on the machine `m`, ends with the outcome `o`
and keeps the journal. That the clauses are in order is asked only if it is `strict`. -/
structure Accounted
    {α : Type}
    (catchFaults strict : Bool)
    (m : Machine)
    (o : Outcome α)
    (journal : List Event) :
    Prop where
  growing : Growing m journal o.machine
  course : ∃ before n, journal = before ++ o.raised n ∧ n.SameStore o.machine ∧
    ∀ stack, ∃ stack', Course catchFaults stack before stack' ∧
      (o.IsTame catchFaults → stack' = stack)
  orderly : strict = true → o.IsTame catchFaults → Orderly journal

end Lox
