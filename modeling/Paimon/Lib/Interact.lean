import Mathlib.Order.Basic

/-!
# Programs that ask a world which moves on

A program is a tree of requests.  Between two of them the world may have grown in any way the order
`≤` allows, and a request gets any answer that `answers` allows in the world it arrives in:

    Run answers w p w' a      `p`, started in the world `w`, ends with `a` in the world `w'`.

* `run_bind`, `run_request`: how a run of a sequence of requests comes apart;
* `run_except`: the same where a step may fail and the rest is then skipped;
* `eval`, `eval_except`: a program in a world that answers with one function;
* `Sometime`: what held in one of the worlds a run passed through;
* `Loop`: a body repeated until it gives a result;
* `Calls`: one operation called again and again on one state.
-/

namespace Interact

variable {Q : Type} {A : Q → Type} {α β ε σ W : Type}

inductive Prog (A : Q → Type) (α : Type) where
  | pure (a : α)
  | ask (q : Q) (k : A q → Prog A α)

namespace Prog

def bind : Prog A α → (α → Prog A β) → Prog A β
  | .pure a, f => f a
  | .ask q k, f => .ask q fun answer => (k answer).bind f

instance : Monad (Prog A) where
  pure := .pure
  bind := bind

def request (q : Q) : Prog A (A q) := .ask q .pure

/-- a program whose every request is answered by `reply` -/
def eval (reply : (q : Q) → A q) : Prog A α → α
  | .pure a => a
  | .ask q k => (k (reply q)).eval reply

theorem eval_bind (reply : (q : Q) → A q) (p : Prog A α) (f : α → Prog A β) :
    (p >>= f).eval reply = (f (p.eval reply)).eval reply := by
  induction p with
  | pure a => rfl
  | ask q k ih => exact ih (reply q)

theorem eval_except (reply : (q : Q) → A q) {x : ExceptT ε (Prog A) α} (f : α → ExceptT ε (Prog A) β) {a : α}
    (h : x.run.eval reply = .ok a) : (x >>= f).run.eval reply = (f a).run.eval reply := by
  refine (eval_bind reply x.run _).trans ?_
  rw [h]
  rfl

end Prog

variable [Preorder W] (answers : W → (q : Q) → A q → Prop)

inductive Run : W → Prog A α → W → α → Prop
  | pure (w : W) (a : α) : Run w (.pure a) w a
  | ask {w w₁ w₂ : W} {q : Q} {answer : A q} {k : A q → Prog A α} {a : α} (le : w ≤ w₁)
      (answered : answers w₁ q answer) (rest : Run w₁ (k answer) w₂ a) : Run w (.ask q k) w₂ a

variable {answers} {w w' : W}

theorem Run.le {p : Prog A α} {a : α} (h : Run answers w p w' a) : w ≤ w' := by
  induction h with
  | pure w a => exact le_refl w
  | ask le _ _ ih => exact le.trans ih

theorem run_pure {a b : α} : Run answers w (Pure.pure a) w' b ↔ w' = w ∧ b = a := by
  constructor
  · intro h
    cases h
    exact ⟨rfl, rfl⟩
  · rintro ⟨rfl, rfl⟩
    exact .pure _ _

theorem run_bind {p : Prog A α} {f : α → Prog A β} {b : β} :
    Run answers w (p >>= f) w' b ↔ ∃ w₁ a, Run answers w p w₁ a ∧ Run answers w₁ (f a) w' b := by
  constructor
  · intro h
    induction p generalizing w with
    | pure a => exact ⟨w, a, .pure w a, h⟩
    | ask q k ih =>
      cases h with
      | ask le answered rest =>
        obtain ⟨w₁, a, hp, hf⟩ := ih _ rest
        exact ⟨w₁, a, .ask le answered hp, hf⟩
  · rintro ⟨w₁, a, hp, hf⟩
    induction hp with
    | pure w a => exact hf
    | ask le answered _ ih => exact .ask le answered (ih hf)

theorem run_request {q : Q} {a : A q} : Run answers w (Prog.request q) w' a ↔ w ≤ w' ∧ answers w' q a := by
  constructor
  · intro h
    cases h with
    | ask le answered rest =>
      cases rest
      exact ⟨le, answered⟩
  · rintro ⟨le, answered⟩
    exact .ask le answered (.pure _ _)

theorem run_except {x : ExceptT ε (Prog A) α} {f : α → ExceptT ε (Prog A) β}
    {r : Except ε β} (h : Run answers w (x >>= f).run w' r) :
    (∃ e, r = .error e ∧ Run answers w x.run w' (.error e)) ∨
      ∃ w₁ a, Run answers w x.run w₁ (.ok a) ∧ Run answers w₁ (f a).run w' r := by
  obtain ⟨w₁, o, hx, hrest⟩ := run_bind.mp h
  cases o with
  | error e =>
    obtain ⟨rfl, rfl⟩ := run_pure.mp hrest
    exact .inl ⟨e, rfl, hx⟩
  | ok a => exact .inr ⟨w₁, a, hx, hrest⟩

theorem run_eval {w : W} {reply : (q : Q) → A q} (h : ∀ q, answers w q (reply q)) (p : Prog A α) :
    Run answers w p w (p.eval reply) := by
  induction p with
  | pure a => exact .pure w a
  | ask q k ih => exact .ask (le_refl w) (h q) (ih _)

/-- `P` held at some moment from `w` to `w'` -/
def Sometime (w w' : W) (P : W → Prop) : Prop := ∃ w₁, w ≤ w₁ ∧ w₁ ≤ w' ∧ P w₁

theorem Sometime.of_le {w₀ w w' : W} {P : W → Prop} (h : Sometime w w' P) (le : w₀ ≤ w) :
    Sometime w₀ w' P := by
  obtain ⟨w₁, hle, hle', hP⟩ := h
  exact ⟨w₁, le.trans hle, hle', hP⟩

/-! ## loops and calls -/

variable (answers) in
/-- `body` again and again until it gives a result -/
inductive Loop (body : σ → Prog A (σ × Option β)) : W → σ → W → σ → β → Prop
  | stop {w w' : W} {s s' : σ} {b : β} (run : Run answers w (body s) w' (s', some b)) :
      Loop body w s w' s' b
  | again {w w₁ w' : W} {s s₁ s' : σ} {b : β} (run : Run answers w (body s) w₁ (s₁, none))
      (rest : Loop body w₁ s₁ w' s' b) : Loop body w s w' s' b

theorem Loop.le {body : σ → Prog A (σ × Option β)} {s s' : σ} {b : β}
    (h : Loop answers body w s w' s' b) : w ≤ w' := by
  induction h with
  | stop run => exact run.le
  | again run _ ih => exact run.le.trans ih

/-- an operation called any number of times; the world also moves between the calls -/
inductive Calls (call : W → σ → W → σ → β → Prop) : W → σ → List β → W → σ → Prop
  | none {w w' : W} {s : σ} (le : w ≤ w') : Calls call w s [] w' s
  | cons {w w₁ w₂ w' : W} {s s₂ s' : σ} {b : β} {bs : List β} (le : w ≤ w₁)
      (first : call w₁ s w₂ s₂ b) (rest : Calls call w₂ s₂ bs w' s') :
      Calls call w s (b :: bs) w' s'

namespace Calls

variable {call : W → σ → W → σ → β → Prop} {w w' : W} {s s' : σ} {as bs : List β}

theorem le (hcall : ∀ {w s w' s' b}, call w s w' s' b → w ≤ w') (h : Calls call w s bs w' s') : w ≤ w' := by
  induction h with
  | none le => exact le
  | cons le first _ ih => exact le.trans ((hcall first).trans ih)

theorem split (h : Calls call w s (as ++ bs) w' s') :
    ∃ w₁ s₁, Calls call w s as w₁ s₁ ∧ Calls call w₁ s₁ bs w' s' := by
  induction as generalizing w s with
  | nil => exact ⟨w, s, .none (le_refl w), h⟩
  | cons a as ih =>
    cases h with
    | cons le first rest =>
      obtain ⟨w₁, s₁, has, hbs⟩ := ih rest
      exact ⟨w₁, s₁, .cons le first has, hbs⟩

end Calls

end Interact
