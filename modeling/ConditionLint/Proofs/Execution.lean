import ConditionLint.Proofs.Program
import Mathlib.Logic.Function.Basic

/-!
# Runs of function bodies

A machine holds the values of the variables and a log of all evaluations so far: each evaluated node with
the value that it had. Expressions are evaluated from left to right, the operands of `&&`, `||` and `?:`
only as far as they are needed. Statements end normally or by a jump; a loop is cut off after a given
number of rounds, and what was logged until then stays, so the runs with all bounds show every part of
every run.

A property that no logged evaluation and no store of a statement destroys holds after the statement when it
held before, however the statement ends.
-/

namespace ConditionLint

/-- The values of the variables, and the evaluations so far. -/
structure Machine where
  vars : VarId → ℤ
  log : List (NodeId × ℤ)

namespace Machine

/-- Give a variable a value. -/
def store (m : Machine) (x : VarId) (v : ℤ) : Machine := { m with vars := Function.update m.vars x v }

/-- Store into the variable that an expression designates, if it is one. -/
def storeAt (m : Machine) (target : Tree) (v : ℤ) : Machine :=
  match target.designated? with
  | some x => m.store x v
  | none => m

/-- Log an evaluation. -/
def record (m : Machine) (i : NodeId) (v : ℤ) : Machine := { m with log := m.log ++ [(i, v)] }

/-- All logged evaluations of the node with the given number had the given truth value. -/
def Logs (m : Machine) (i : NodeId) (truth : Bool) : Prop := ∀ e ∈ m.log, e.1 = i → (e.2 != 0) = truth

/-- Logging another node, or the node itself with this truth value, changes nothing about that. -/
theorem Logs.record {m : Machine} {i j : NodeId} {truth : Bool} {v : ℤ} (h : m.Logs i truth)
    (hv : j = i → (v != 0) = truth) : (m.record j v).Logs i truth := by
  intro e he hei
  rcases List.mem_append.mp he with he | he
  · exact h e he hei
  · obtain rfl := List.mem_singleton.mp he
    exact hv hei

/-- Logging an evaluation changes no variable. -/
@[simp] theorem vars_record (m : Machine) (i : NodeId) (v : ℤ) : (m.record i v).vars = m.vars := rfl

end Machine

/-- Log the value with which the evaluation of a node ends. -/
def recorded (i : NodeId) (r : ℤ × Machine) : ℤ × Machine := (r.1, r.2.record i r.1)

/-- The operation by which an increment or a decrement changes its operand. -/
def UnaryOp.step : UnaryOp → ArithOp
  | preDec => .sub
  | postDec => .sub
  | _ => .add

namespace Tree

/-- The variable that the node itself stores into. -/
def storedVar? (t : Tree) : Option VarId :=
  if t.isAssignment || t.isIncrement then t.operands.head?.bind designated? else none

end Tree

namespace Valuation

open ConditionLint.Tree

/-- The valuation with other values for the variables. -/
def under (V : Valuation ℤ) (σ : VarId → ℤ) : Valuation ℤ := { V with var := σ }

/-- Evaluate an expression. An operator that stores reads the old value first. -/
def evaluate (V : Valuation ℤ) : Tree → Machine → ℤ × Machine
  | node l ts, m =>
    recorded l.id <|
      match l.kind, ts with
      | .unary op, [t] =>
        if op.isIncrement then
          let old := (V.under m.vars).eval t
          let new := V.arith op.step old 1
          (if op.standsBehind then old else new, m.storeAt t new)
        else
          let r := evaluate V t m
          (if op = .not then ofTruth (r.1 == 0) else V.unary op r.1, r.2)
      | .binary (.arith op), [a, b] =>
        let r := evaluate V a m
        let s := evaluate V b r.2
        (V.arith op r.1 s.1, s.2)
      | .binary (.compare o), [a, b] =>
        let r := evaluate V a m
        let s := evaluate V b r.2
        (ofTruth (o.holds r.1 s.1), s.2)
      | .binary (.logic .and), [a, b] =>
        let r := evaluate V a m
        if r.1 = 0 then (0, r.2)
        else
          let s := evaluate V b r.2
          (ofTruth (s.1 != 0), s.2)
      | .binary (.logic .or), [a, b] =>
        let r := evaluate V a m
        if r.1 = 0 then
          let s := evaluate V b r.2
          (ofTruth (s.1 != 0), s.2)
        else (1, r.2)
      | .binary .comma, [a, b] => evaluate V b (evaluate V a m).2
      | .binary .assign, [a, b] =>
        let s := evaluate V b m
        (s.1, s.2.storeAt a s.1)
      | .binary (.update op), [a, b] =>
        let old := (V.under m.vars).eval a
        let s := evaluate V b m
        let new := V.arith op old s.1
        (new, s.2.storeAt a new)
      | .ternary, [c, a, b] =>
        let r := evaluate V c m
        if r.1 = 0 then evaluate V b r.2 else evaluate V a r.2
      | _, _ => ((V.under m.vars).eval (node l ts), m)

end Valuation

/-- How a statement ends. -/
inductive Exit where
  | normal
  | breaks
  | continues
  | returns
  /-- A loop ran out of rounds. -/
  | cut
  deriving DecidableEq, Repr

/-- How a loop ends after a round whose body ended so; none if it may go on. -/
def Exit.afterRound? : Exit → Option Exit
  | normal => none
  | breaks => some normal
  | continues => none
  | returns => some returns
  | cut => some cut

/-- Go on behind a statement that ended normally. -/
def andThen (r : Exit × Machine) (next : Machine → Exit × Machine) : Exit × Machine :=
  if r.1 = .normal then next r.2 else r

/-- One round of a loop: a test, the body, and a test behind it. It says how the loop ends, if it does. -/
def round (before : Machine → ℤ × Machine) (body : Machine → Exit × Machine)
    (behind : Machine → ℤ × Machine) (m : Machine) : Option Exit × Machine :=
  let r := before m
  if r.1 = 0 then (some .normal, r.2)
  else
    let e := body r.2
    match e.1.afterRound? with
    | some exit => (some exit, e.2)
    | none =>
      let s := behind e.2
      if s.1 = 0 then (some .normal, s.2) else (none, s.2)

/-- Repeat rounds until one ends the loop, or the bound is reached. -/
def iterate (once : Machine → Option Exit × Machine) : Nat → Machine → Exit × Machine
  | 0, m => (.cut, m)
  | n + 1, m =>
    match once m with
    | (some exit, m) => (exit, m)
    | (none, m) => iterate once n m

namespace Valuation

open ConditionLint.Tree

/-- Evaluate a clause of a `for`; one that is left out is true. -/
def evaluateClause (V : Valuation ℤ) (t : Tree) (m : Machine) : ℤ × Machine :=
  if t.kind = .empty then (1, m) else V.evaluate t m

mutual

/-- Execute a statement, each loop in it for at most `n` rounds. -/
def exec (V : Valuation ℤ) (n : Nat) : Tree → Machine → Exit × Machine
  | node l ts, m =>
    match l.kind, ts with
    | .empty, _ => (.normal, m)
    | .block, ts => execAll V n ts m
    | .keyword (.ifStmt _), [c, a] =>
      let r := V.evaluate c m
      if r.1 = 0 then (.normal, r.2) else exec V n a r.2
    | .keyword (.ifStmt _), [c, a, b] =>
      let r := V.evaluate c m
      if r.1 = 0 then exec V n b r.2 else exec V n a r.2
    | .keyword .whileStmt, [c, b] => iterate (round (V.evaluate c) (exec V n b) fun m => (1, m)) n m
    | .keyword .doWhile, [b, c] => iterate (round (fun m => (1, m)) (exec V n b) (V.evaluate c)) n m
    | .keyword .forStmt, [start, c, step, b] =>
      iterate (round (V.evaluateClause c) (exec V n b) fun m => (1, (V.evaluateClause step m).2)) n
        (V.evaluateClause start m).2
    | .keyword .returnStmt, [] => (.returns, m)
    | .keyword .returnStmt, [t] => (.returns, (V.evaluate t m).2)
    | .keyword .breakStmt, _ => (.breaks, m)
    | .keyword .continueStmt, _ => (.continues, m)
    | _, _ => (.normal, (V.evaluate (node l ts) m).2)

/-- Execute statements one after the other, until one of them does not end normally. -/
def execAll (V : Valuation ℤ) (n : Nat) : List Tree → Machine → Exit × Machine
  | [], m => (.normal, m)
  | t :: ts, m => andThen (exec V n t m) (execAll V n ts)

end

section Equations

variable (V : Valuation ℤ) (n : Nat) {p : Tree → Bool} {l : Label} {t a b c : Tree} (m : Machine)

attribute [local simp] exec

/-- An expression is a statement that evaluates it. -/
theorem exec_expression (h : t.Expression p) : V.exec n t m = (.normal, (V.evaluate t m).2) := by
  obtain ⟨l, ts⟩ := t
  obtain ⟨hkeyword, hblock, hempty, -⟩ := h.kind_spec
  rw [exec.eq_def]
  simp only
  split <;> simp_all [keyword?, kind, label]

/-- A block executes its statements. -/
theorem exec_block {ts : List Tree} (hkind : l.kind = .block) :
    V.exec n (node l ts) m = V.execAll n ts m := by
  simp [hkind]

/-- An `if` without `else` does nothing else when its condition is false. -/
theorem exec_ifThen {constexpr : Bool} (hkind : l.kind = .keyword (.ifStmt constexpr)) :
    V.exec n (node l [c, a]) m =
      if (V.evaluate c m).1 = 0 then (.normal, (V.evaluate c m).2) else V.exec n a (V.evaluate c m).2 := by
  simp [hkind]

/-- An `if` with `else` executes one of its branches. -/
theorem exec_ifElse {constexpr : Bool} (hkind : l.kind = .keyword (.ifStmt constexpr)) :
    V.exec n (node l [c, a, b]) m =
      if (V.evaluate c m).1 = 0 then V.exec n b (V.evaluate c m).2 else V.exec n a (V.evaluate c m).2 := by
  simp [hkind]

/-- A `while` evaluates its condition before each round. -/
theorem exec_while (hkind : l.kind = .keyword .whileStmt) :
    V.exec n (node l [c, b]) m =
      iterate (round (V.evaluate c) (V.exec n b) fun m => (1, m)) n m := by
  simp [hkind]

/-- A `do` evaluates its condition behind each round. -/
theorem exec_do (hkind : l.kind = .keyword .doWhile) :
    V.exec n (node l [b, c]) m =
      iterate (round (fun m => (1, m)) (V.exec n b) (V.evaluate c)) n m := by
  simp [hkind]

/-- A `for` evaluates its first clause once, and the other two before and behind each round. -/
theorem exec_for {start step : Tree} (hkind : l.kind = .keyword .forStmt) :
    V.exec n (node l [start, c, step, b]) m =
      iterate (round (V.evaluateClause c) (V.exec n b) fun m => (1, (V.evaluateClause step m).2)) n
        (V.evaluateClause start m).2 := by
  simp [hkind]

/-- A `return` evaluates its operand. -/
theorem exec_return (hkind : l.kind = .keyword .returnStmt) :
    V.exec n (node l [t]) m = (.returns, (V.evaluate t m).2) := by
  simp [hkind]

end Equations

end Valuation

/-- What holds after a statement that may be left holds after the next one too, if that keeps it. -/
theorem andThen_of {P Q : Machine → Prop} {r : Exit × Machine} {next : Machine → Exit × Machine}
    (hr : P r.2) (hleft : P r.2 → Q r.2) (hnext : ∀ m, P m → Q (next m).2) : Q (andThen r next).2 := by
  unfold andThen
  split
  · exact hnext r.2 hr
  · exact hleft hr

/-- What holds however a statement ends holds after the next one too, if that follows from what holds when the
statement ends normally. -/
theorem andThen_of_normal {P Q : Machine → Prop} {r : Exit × Machine} {next : Machine → Exit × Machine}
    (hr : Q r.2) (hnormal : r.1 = .normal → P r.2) (hnext : ∀ m, P m → Q (next m).2) :
    Q (andThen r next).2 := by
  unfold andThen
  split
  · next hexit => exact hnext r.2 (hnormal hexit)
  · exact hr

/-- What ends normally has gone on behind a statement that did. -/
theorem of_andThen_normal {r : Exit × Machine} {next : Machine → Exit × Machine}
    (h : (andThen r next).1 = .normal) : r.1 = .normal ∧ andThen r next = next r.2 := by
  unfold andThen at h ⊢
  split at h
  · next hexit => exact ⟨hexit, if_pos hexit⟩
  · next hexit => exact absurd h hexit

/-- A round keeps a property when both tests do, and the body restores it from what is known when the first
test is passed. -/
theorem round_of {P Q : Machine → Prop} {before behind : Machine → ℤ × Machine}
    {body : Machine → Exit × Machine}
    (hbefore : ∀ m, P m → P (before m).2 ∧ ((before m).1 ≠ 0 → Q (before m).2))
    (hbody : ∀ m, Q m → P (body m).2) (hbehind : ∀ m, P m → P (behind m).2) {m : Machine} (hm : P m) :
    P (round before body behind m).2 := by
  obtain ⟨hfailed, hpassed⟩ := hbefore m hm
  unfold round
  dsimp only
  split
  · exact hfailed
  · next htest =>
    have hround := hbody _ (hpassed htest)
    split
    · exact hround
    · split
      · exact hbehind _ hround
      · exact hbehind _ hround

/-- A property that every round keeps is kept by the loop. -/
theorem iterate_of {P : Machine → Prop} {once : Machine → Option Exit × Machine}
    (honce : ∀ m, P m → P (once m).2) (n : Nat) {m : Machine} (hm : P m) : P (iterate once n m).2 := by
  induction n generalizing m with
  | zero => exact hm
  | succ n ih =>
    have hround := honce m hm
    unfold iterate
    split
    · next hend => simpa [hend] using hround
    · next hend => exact ih (by simpa [hend] using hround)

namespace Tree

/-- An increment stores into what its operand designates. -/
theorem storedVar?_increment {l : Label} {op : UnaryOp} {t : Tree} (hkind : l.kind = .unary op)
    (hop : op.isIncrement = true) : (node l [t]).storedVar? = t.designated? := by
  simp [storedVar?, isIncrement, unaryOp?, kind, label, hkind, hop, operands]

/-- An assignment stores into what its left operand designates. -/
theorem storedVar?_assignment {l : Label} {op : BinaryOp} {a b : Tree} (hkind : l.kind = .binary op)
    (hop : op.isAssignment = true) : (node l [a, b]).storedVar? = a.designated? := by
  simp [storedVar?, isAssignment, binaryOp?, kind, label, hkind, hop, operands]

end Tree

namespace Valuation

open ConditionLint.Tree

/-- Evaluating a node keeps an invariant that moves on with each operand, whether it is evaluated or skipped. A
store comes behind all of them. What is left is to log the value of the node. -/
theorem evaluate_of_operands (V : Valuation ℤ) {P : Nat → Machine → Prop} {l : Label} {ts : List Tree}
    (hskip : ∀ i m, P i m → P (i + 1) m)
    (heval : ∀ i a, ts[i]? = some a → ∀ m, P i m → P (i + 1) (V.evaluate a m).2)
    (hstore : ∀ x, (node l ts).storedVar? = some x → ∀ m v, P ts.length m → P ts.length (m.store x v))
    {m : Machine} (hm : P 0 m) :
    ∃ v m', V.evaluate (node l ts) m = recorded l.id (v, m') ∧ P ts.length m' := by
  have hstoreAt {target : Tree} (htarget : (node l ts).storedVar? = target.designated?) {m : Machine} {v : ℤ}
      (hm : P ts.length m) : P ts.length (m.storeAt target v) := by
    unfold Machine.storeAt
    split
    · next x hx => exact hstore x (htarget.trans hx) m v hm
    · exact hm
  have hnone (i : Nat) : P i m := by
    induction i with
    | zero => exact hm
    | succ i ih => exact hskip i m ih
  refine ⟨_, _, evaluate.eq_def V (node l ts) m, ?_⟩
  split
  · next op t hkind =>
    split
    · next hop => exact hstoreAt (storedVar?_increment hkind hop) (hskip 0 m hm)
    · exact heval 0 t rfl m hm
  · next a b _ => exact heval 1 b rfl _ (heval 0 a rfl m hm)
  · next a b _ => exact heval 1 b rfl _ (heval 0 a rfl m hm)
  · next a b _ =>
    dsimp only
    split
    · exact hskip 1 _ (heval 0 a rfl m hm)
    · exact heval 1 b rfl _ (heval 0 a rfl m hm)
  · next a b _ =>
    dsimp only
    split
    · exact heval 1 b rfl _ (heval 0 a rfl m hm)
    · exact hskip 1 _ (heval 0 a rfl m hm)
  · next a b _ => exact heval 1 b rfl _ (heval 0 a rfl m hm)
  · next a b hkind =>
    exact hstoreAt (storedVar?_assignment hkind rfl) (heval 1 b rfl m (hskip 0 m hm))
  · next op a b hkind =>
    exact hstoreAt (storedVar?_assignment hkind rfl) (heval 1 b rfl m (hskip 0 m hm))
  · next c a b _ =>
    have hc := heval 0 c rfl m hm
    dsimp only
    split
    · exact heval 2 b rfl _ (hskip 1 _ hc)
    · exact hskip 2 _ (heval 1 a rfl _ hc)
  · exact hnone _

/-- No evaluation that is logged and no store in the tree destroys the property. -/
structure Stable (V : Valuation ℤ) (P : Machine → Prop) (t : Tree) : Prop where
  whole : t.IsWhole
  record : ∀ s ∈ t.subtrees, ∀ m m' v, P m → P m' → V.evaluate s m = recorded s.id (v, m') →
    P (m'.record s.id v)
  store : ∀ s ∈ t.subtrees, ∀ x, s.storedVar? = some x → ∀ m v, P m → P (m.store x v)

namespace Stable

variable {V : Valuation ℤ} {P : Machine → Prop} {t : Tree} {l : Label} {ts : List Tree}

/-- Nothing in a tree changes what is logged about other nodes. -/
theorem logs (hwhole : t.IsWhole) {i : NodeId} (hid : i ∉ t.ids) (truth : Bool) :
    V.Stable (fun m => m.Logs i truth) t where
  whole := hwhole
  record _ hs _ _ _ _ hm' _ := hm'.record fun heq => absurd (id_mem_ids hs) (heq ▸ hid)
  store _ _ _ _ _ _ hm := hm

/-- What is stable under a tree is stable under its operands. -/
theorem operand (h : V.Stable P (node l ts)) {a : Tree} (ha : a ∈ ts) : V.Stable P a := by
  have hmem := h.whole.mem_of_operand ha
  exact ⟨h.whole.of_mem hmem, fun s hs => h.record s (mem_subtrees_trans hs hmem),
    fun s hs => h.store s (mem_subtrees_trans hs hmem)⟩

/-- A stable property is kept by the evaluation of an expression. -/
theorem evaluate (h : V.Stable P t) {m : Machine} (hm : P m) : P (V.evaluate t m).2 := by
  induction t using induction_operands generalizing m with
  | step l ts ih =>
    obtain ⟨v, m', heq, hm'⟩ := V.evaluate_of_operands (P := fun _ => P) (fun _ _ hm => hm)
      (fun _ a ha m hm => ih a (List.mem_of_getElem? ha) (h.operand (List.mem_of_getElem? ha)) hm)
      (fun x hx m v hm => h.store _ (mem_subtrees_self _) x hx m v hm) hm
    rw [heq]
    exact h.record _ (mem_subtrees_self _) m m' v hm hm' heq

end Stable

section Statements

variable {V : Valuation ℤ} {n : Nat} {P : Machine → Prop} {p : Tree → Bool} {t : Tree} {m : Machine}

/-- A clause keeps what its expression keeps. -/
theorem evaluateClause_of (ht : t.Clause p) (heval : t.Expression p → ∀ m, P m → P (V.evaluate t m).2)
    (hm : P m) : P (V.evaluateClause t m).2 := by
  unfold evaluateClause
  split
  · exact hm
  · next hkind =>
    rcases ht with ht | ⟨hempty, -⟩
    · exact heval ht m hm
    · exact absurd hempty hkind

/-- Statements one after the other keep what each of them keeps. -/
theorem execAll_of {ts : List Tree} (hexec : ∀ t ∈ ts, ∀ m, P m → P (V.exec n t m).2) (hm : P m) :
    P (V.execAll n ts m).2 := by
  induction ts generalizing m with
  | nil => exact hm
  | cons t ts ih =>
    have ht := hexec t List.mem_cons_self m hm
    exact andThen_of ht (fun h => h) fun m hm => ih (fun s hs => hexec s (List.mem_cons_of_mem t hs)) hm

/-- Statements one after the other that all end normally keep what each of them keeps when it does. -/
theorem execAll_of_normal {ts : List Tree}
    (hexec : ∀ t ∈ ts, ∀ m, P m → (V.exec n t m).1 = .normal → P (V.exec n t m).2) (hm : P m)
    (hexit : (V.execAll n ts m).1 = .normal) : P (V.execAll n ts m).2 := by
  induction ts generalizing m with
  | nil => exact hm
  | cons t ts ih =>
    obtain ⟨hnormal, hbehind⟩ := of_andThen_normal hexit
    have ht := hexec t List.mem_cons_self m hm hnormal
    rw [execAll, hbehind] at hexit ⊢
    exact ih (fun s hs => hexec s (List.mem_cons_of_mem t hs)) ht hexit

/-- A statement keeps what the evaluation of its expressions and the execution of its statements keep. -/
theorem exec_of_operands (ht : t.Statement p)
    (hself : t.Expression p → ∀ m, P m → P (V.evaluate t m).2)
    (heval : ∀ a ∈ t.operands, a.Expression p → ∀ m, P m → P (V.evaluate a m).2)
    (hexec : ∀ a ∈ t.operands, a.Statement p → ∀ m, P m → P (V.exec n a m).2) (hm : P m) :
    P (V.exec n t m).2 := by
  cases ht with
  | expression ht =>
    rw [V.exec_expression n m ht]
    exact hself ht m hm
  | empty hkind => simpa [exec, hkind] using hm
  | block hkind hts =>
    rw [V.exec_block n m hkind]
    exact execAll_of (fun a ha => hexec a ha (hts a ha)) hm
  | @ifThen l _ c a hkind hc ha =>
    have hcondition := heval c (by simp [operands]) hc m hm
    rw [V.exec_ifThen n m hkind]
    split
    · exact hcondition
    · exact hexec a (by simp [operands]) ha _ hcondition
  | @ifElse l _ c a b hkind hc ha hb =>
    have hcondition := heval c (by simp [operands]) hc m hm
    rw [V.exec_ifElse n m hkind]
    split
    · exact hexec b (by simp [operands]) hb _ hcondition
    · exact hexec a (by simp [operands]) ha _ hcondition
  | @whileLoop l c b hkind hc hb =>
    have hcondition := heval c (by simp [operands]) hc
    rw [V.exec_while n m hkind]
    refine iterate_of (fun m hm => ?_) n hm
    refine round_of (Q := P) (fun m hm => ?_) (hexec b (by simp [operands]) hb) (fun m hm => hm) hm
    exact ⟨hcondition m hm, fun _ => hcondition m hm⟩
  | @doLoop l b c hkind hb hc =>
    have hcondition := heval c (by simp [operands]) hc
    rw [V.exec_do n m hkind]
    refine iterate_of (fun m hm => ?_) n hm
    refine round_of (Q := P) (fun m hm => ?_) (hexec b (by simp [operands]) hb) hcondition hm
    exact ⟨hm, fun _ => hm⟩
  | @forLoop l start c step b hkind hstart hc hstep hb =>
    have hclause {a : Tree} (ha : a ∈ [start, c, step, b]) (hclause : a.Clause p) (m : Machine) (hm : P m) :
        P (V.evaluateClause a m).2 :=
      evaluateClause_of hclause (heval a ha) hm
    have hcondition := hclause (by simp) hc
    rw [V.exec_for n m hkind]
    refine iterate_of (fun m hm => ?_) n (hclause (by simp) hstart m hm)
    refine round_of (Q := P) (fun m hm => ?_) (hexec b (by simp [operands]) hb) (fun m hm => ?_) hm
    · exact ⟨hcondition m hm, fun _ => hcondition m hm⟩
    · exact hclause (by simp) hstep m hm
  | returnValue hkind ht =>
    rw [V.exec_return n m hkind]
    exact heval _ (by simp [operands]) ht m hm
  | returnNothing hkind => simpa [exec, hkind] using hm
  | breakLoop hkind => simpa [exec, hkind] using hm
  | continueLoop hkind => simpa [exec, hkind] using hm

/-- A stable property is kept by the execution of a statement. -/
theorem Stable.exec (h : V.Stable P t) (ht : t.Statement p) (hm : P m) : P (V.exec n t m).2 := by
  induction t using induction_operands generalizing m with
  | step l ts ih =>
    refine exec_of_operands ht (fun _ m hm => h.evaluate hm) (fun a ha _ m hm => ?_)
      (fun a ha hstatement m hm => ?_) hm
    · exact (h.operand ha).evaluate hm
    · exact ih a ha (h.operand ha) hstatement hm

end Statements

section Jumps

variable {V : Valuation ℤ} {n : Nat} {p : Tree → Bool} {t : Tree} {m : Machine}

/-- A statement that leaves does not end normally. -/
theorem exec_of_isLeaving (ht : t.Statement p) (h : t.isLeaving = true) : (V.exec n t m).1 ≠ .normal := by
  cases ht with
  | returnValue hkind _ => simp [V.exec_return n m hkind]
  | returnNothing hkind => simp [exec, hkind]
  | breakLoop hkind => simp [exec, hkind]
  | continueLoop hkind => simp [exec, hkind]
  | expression ht => simp [isLeaving, ht.kind_spec.1] at h
  | _ => simp_all [isLeaving, keyword?, kind, label]

/-- A body whose first statement leaves does not end normally. -/
theorem exec_of_leavesAtOnce (ht : t.Statement p) (h : t.leavesAtOnce = true) :
    (V.exec n t m).1 ≠ .normal := by
  obtain ⟨first, hfirst, hleaving⟩ := (Option.any_eq_true _ _).mp h
  unfold statements at hfirst
  split at hfirst
  · next hblock =>
    obtain ⟨l, ts⟩ := t
    obtain ⟨rest, rfl⟩ : ∃ rest, ts = first :: rest := List.head?_eq_some_iff.mp hfirst
    have hleft := exec_of_isLeaving (V := V) (n := n) (m := m) (ht.operand List.mem_cons_self) hleaving
    have hkind : l.kind = .block := of_decide_eq_true hblock
    rw [V.exec_block n m hkind, execAll, andThen, if_neg hleft]
    exact hleft
  · obtain rfl : t = first := by simpa using hfirst
    exact exec_of_isLeaving ht hleaving

/-- Executing two rows of statements is executing one behind the other. -/
theorem execAll_append (ts us : List Tree) :
    V.execAll n (ts ++ us) m = andThen (V.execAll n ts m) (V.execAll n us) := by
  induction ts generalizing m with
  | nil => rfl
  | cons t ts ih =>
    simp only [List.cons_append, execAll]
    unfold andThen
    by_cases hnormal : (V.exec n t m).1 = .normal
    · simp only [if_pos hnormal, ih, andThen]
    · simp only [if_neg hnormal]

/-- Behind an `if` whose body leaves, what follows is executed exactly when the condition is false; the else
branch comes first. -/
theorem exec_if_leaving {c a : Tree} (ht : t.Statement p) (hif : t.isIf = true) (hc : t.condition? = some c)
    (ha : t.body? = some a) (hleaves : a.leavesAtOnce = true) (ts : List Tree) :
    andThen (V.exec n t m) (V.execAll n ts) =
      if (V.evaluate c m).1 = 0 then V.execAll n (t.operands.drop 2 ++ ts) (V.evaluate c m).2
      else V.exec n a (V.evaluate c m).2 := by
  have hleft (hstatement : a.Statement p) (m : Machine) :
      andThen (V.exec n a m) (V.execAll n ts) = V.exec n a m :=
    if_neg (exec_of_leavesAtOnce hstatement hleaves)
  cases ht with
  | @ifThen l _ c' a' hkind _ hstatement =>
    obtain rfl : c' = c := Option.some.inj (of_condition? (t := node l [c', a']) hkind rfl hc).1
    obtain rfl : a' = a := Option.some.inj (of_body? (t := node l [c', a']) hkind rfl ha)
    rw [V.exec_ifThen n m hkind]
    split
    · rfl
    · exact hleft hstatement _
  | @ifElse l _ c' a' b hkind _ hstatement _ =>
    obtain rfl : c' = c := Option.some.inj (of_condition? (t := node l [c', a', b]) hkind rfl hc).1
    obtain rfl : a' = a := Option.some.inj (of_body? (t := node l [c', a', b]) hkind rfl ha)
    rw [V.exec_ifElse n m hkind]
    split
    · rfl
    · exact hleft hstatement _
  | expression ht => simp [ht.isIf_eq_false] at hif
  | _ => simp_all [isIf, kind, label]

end Jumps

section Pure

variable (V : Valuation ℤ) {p : Tree → Bool} {t : Tree}

/-- Only the values of variables are replaced. -/
@[simp] theorem var_under (σ : VarId → ℤ) : (V.under σ).var = σ := rfl
@[simp] theorem unary_under (σ : VarId → ℤ) : (V.under σ).unary = V.unary := rfl
@[simp] theorem arith_under (σ : VarId → ℤ) : (V.under σ).arith = V.arith := rfl

/-- A pure expression evaluates to its value, and changes no variable. -/
theorem evaluate_pure (h : t.Pure p) (m : Machine) :
    (V.evaluate t m).1 = (V.under m.vars).eval t ∧ (V.evaluate t m).2.vars = m.vars := by
  induction h generalizing m with
  | literal _ hkind hvalue => simp [evaluate, recorded, hkind]
  | enumerator _ hkind hreferent =>
    rw [evaluate.eq_def]
    simp [recorded, hkind]
  | reference _ hkind hreferent => simp [evaluate, recorded, hkind]
  | @unary l op t _ hkind hop _ ih =>
    obtain ⟨hvalue, hvars⟩ := ih m
    cases op <;> simp_all [evaluate, recorded, eval, UnaryOp.isPure, UnaryOp.isIncrement]
  | @binary l op a b _ hkind hop _ _ iha ihb =>
    obtain ⟨hvalue, hvars⟩ := iha m
    obtain ⟨hvalue', hvars'⟩ := ihb (V.evaluate a m).2
    rw [hvars] at hvalue' hvars'
    cases op with
    | logic c =>
      by_cases hzero : (V.under m.vars).eval a = 0 <;> cases c <;>
        simp_all [evaluate, recorded, eval, Connective.eval, ofTruth]
    | arith op => simp_all [evaluate, recorded, eval]
    | compare o => simp_all [evaluate, recorded, eval]
    | comma => simp_all [evaluate, recorded, eval]
    | assign => contradiction
    | update op => contradiction
  | @ternary l c a b _ hkind _ _ _ ihc iha ihb =>
    obtain ⟨hvalue, hvars⟩ := ihc m
    have ha := iha (V.evaluate c m).2
    have hb := ihb (V.evaluate c m).2
    by_cases hzero : (V.under m.vars).eval c = 0 <;> simp_all [evaluate, recorded, eval]

/-- The value of a pure expression depends on the variables that it reads only. -/
theorem eval_under_congr (h : t.Pure p) (hwhole : t.IsWhole) {σ τ : VarId → ℤ}
    (hagree : ∀ x, t.Reads x → σ x = τ x) : (V.under σ).eval t = (V.under τ).eval t := by
  have hoperand {l : Label} {ts : List Tree} (hwhole : (node l ts).IsWhole)
      (hagree : ∀ x, (node l ts).Reads x → σ x = τ x) {a : Tree} (ha : a ∈ ts) :
      a.IsWhole ∧ ∀ x, a.Reads x → σ x = τ x :=
    ⟨hwhole.operand ha, fun x hx => hagree x (hx.of_mem (hwhole.mem_of_operand ha))⟩
  induction h with
  | literal _ hkind hvalue => simp [eval, hkind, hvalue]
  | enumerator _ hkind _ =>
    rw [eval.eq_def, eval.eq_def]
    simp [hkind]
  | @reference l name x _ hkind hreferent =>
    have hx := hagree x.id ⟨_, mem_subtrees_self _, by simp [varId?, referent, label, hreferent]⟩
    simp [eval, hkind, hreferent, hx]
  | @unary l op t _ hkind hop _ ih =>
    obtain ⟨hwhole, hagree⟩ := hoperand hwhole hagree List.mem_cons_self
    have ht := ih hwhole hagree
    cases op <;> simp_all [eval, UnaryOp.isPure]
  | @binary l op a b _ hkind hop _ _ iha ihb =>
    have ha := hoperand hwhole hagree (a := a) (by simp)
    have hb := hoperand hwhole hagree (a := b) (by simp)
    have heqa := iha ha.1 ha.2
    have heqb := ihb hb.1 hb.2
    cases op <;> simp_all [eval, BinaryOp.isPure]
  | @ternary l c a b _ hkind _ _ _ ihc iha ihb =>
    have hc := hoperand hwhole hagree (a := c) (by simp)
    have ha := hoperand hwhole hagree (a := a) (by simp)
    have hb := hoperand hwhole hagree (a := b) (by simp)
    simp [eval, hkind, ihc hc.1 hc.2, iha ha.1 ha.2, ihb hb.1 hb.2]

end Pure

end Valuation

end ConditionLint
