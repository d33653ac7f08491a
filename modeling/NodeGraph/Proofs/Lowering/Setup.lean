import NodeGraph.Proofs.Lowering.Account

/-!
# The order of setup

In the setup pass an expression of any kind is lowered in the same order: first its children, then what it asks
for on its own account. The second part is the lowering of an expression whose children are lowered already,
that is, one where the way to lower another expression does nothing (`ends_lowerExpr_of_own`).
-/
namespace NodeGraph.Lowering

/-- A way to lower expressions that does nothing. -/
def idle : ExprId → Step Unit := fun _ => pure ()

/-- The attempt gives up before it does anything, or it lowers children and then is like another one. -/
def Splits (children : Step Unit) (m own : Attempt Unit) : Prop :=
  ∀ {s : State} {Q E : State → Prop}, E s →
    Step.Ends (fun _ => True) s children (fun _ s' =>
      Attempt.Ends (fun _ => True) s' own (fun _ => Q) fun _ => E) →
    Attempt.Ends (fun _ => True) s m (fun _ => Q) fun _ => E

section Rules

variable {α : Type} {children : Step Unit} {f g : α → Attempt Unit}

theorem splits_throw {error : LowerError} {own : Attempt Unit} : Splits children (throw error) own := fun hs _ => hs

theorem splits_lift_bind {r : Checked α} (h : ∀ x, r = .ok x → Splits children (f x) (g x)) :
    Splits children (liftM r >>= f) (liftM r >>= g) := by
  cases r with
  | ok x => exact h x rfl
  | error fault => exact fun _ _ => trivial

end Rules

namespace Context

variable {cx : Context} {lower : ExprId → Step Unit} {e : ExprId}

theorem ends_lowerChildren_idle {s : State} {Q : State → Prop} {children : List ExprId}
    (hchildren : cx.tree.children e = .ok children) :
    Step.Ends (fun _ => True) s (cx.lowerChildren idle e) (fun _ => Q) ↔ Q s := by
  have hidle : ∀ l : List ExprId, l.forM idle = (pure () : Step Unit) := by
    intro l
    induction l with
    | nil => rfl
    | cons c l ih => rw [List.forM, ih, idle, pure_bind]
  unfold lowerChildren
  rw [hchildren]
  show Step.Ends _ s (children.forM idle) _ ↔ _
  rw [hidle]
  rfl

theorem splits_children_bind {rest : Unit → Attempt Unit} :
    Splits (cx.lowerChildren lower e) (liftM (cx.lowerChildren lower e) >>= rest)
      (liftM (cx.lowerChildren idle e) >>= rest) := by
  intro s Q E _ h
  refine Attempt.ends_bind.2 (Attempt.ends_step.2 ?_)
  cases hchildren : cx.tree.children e with
  | error f =>
    unfold Step.Ends lowerChildren
    rw [hchildren]
    trivial
  | ok children =>
    refine h.mono fun _ s1 h1 => ?_
    exact (ends_lowerChildren_idle hchildren).1 (Attempt.ends_step.1 (Attempt.ends_bind.1 h1))

theorem splits_children :
    Splits (cx.lowerChildren lower e) (liftM (cx.lowerChildren lower e)) (liftM (cx.lowerChildren idle e)) := by
  have h : Splits (cx.lowerChildren lower e) (liftM (cx.lowerChildren lower e) >>= pure)
      (liftM (cx.lowerChildren idle e) >>= pure) := splits_children_bind
  rwa [bind_pure, bind_pure] at h

theorem splits_requiredVar_bind {pin : String} {f g : ExprId → Attempt Unit}
    (h : ∀ var, Splits (cx.lowerChildren lower e) (f var) (g var)) :
    Splits (cx.lowerChildren lower e) (cx.requiredVar e pin >>= f) (cx.requiredVar e pin >>= g) := by
  unfold requiredVar
  rw [bind_assoc, bind_assoc]
  refine splits_lift_bind fun r _ => ?_
  cases r with
  | none =>
    dsimp only
    rw [bind_assoc, bind_assoc]
    exact splits_lift_bind fun x _ => splits_throw
  | some var => exact h var

variable (hpass : cx.pass = .setup)

include hpass

theorem splits_lowerIf : Splits (cx.lowerChildren lower e) (cx.lowerIf lower e) (cx.lowerIf idle e) := by
  unfold lowerIf
  rw [hpass]
  exact splits_requiredVar_bind fun _ => splits_requiredVar_bind fun _ => splits_children_bind

theorem splits_lowerSelect :
    Splits (cx.lowerChildren lower e) (cx.lowerSelect lower e) (cx.lowerSelect idle e) := by
  unfold lowerSelect
  rw [hpass]
  refine splits_lift_bind fun cases _ => ?_
  cases cases with
  | nil => exact splits_children_bind
  | cons first others => exact splits_children_bind

theorem splits_lowerCall : Splits (cx.lowerChildren lower e) (cx.lowerCall lower e) (cx.lowerCall idle e) := by
  unfold lowerCall
  refine splits_lift_bind fun node _ => ?_
  cases node with
  | none => exact splits_lift_bind fun _ _ => splits_throw
  | some kind => cases kind with
    | unit function => exact splits_children_bind
    | forLoop function =>
      dsimp only
      unfold lowerForLoop
      rw [hpass]
      exact splits_children_bind
    | _ => exact splits_lift_bind fun _ _ => splits_throw

theorem splits_lowerArray : Splits (cx.lowerChildren lower e) (cx.lowerArray lower e) (cx.lowerArray idle e) := by
  unfold lowerArray
  refine splits_lift_bind fun node _ => ?_
  cases node with
  | none => exact splits_lift_bind fun _ _ => splits_throw
  | some kind => cases kind with
    | array op => cases op with
      | iterate =>
        dsimp only
        unfold lowerIterate
        rw [hpass]
        exact splits_children_bind
      | _ => exact splits_children_bind
    | _ => exact splits_lift_bind fun _ _ => splits_throw

theorem splits_lowerEntry : Splits (cx.lowerChildren lower e) (liftM (cx.lowerEntry lower e))
    (liftM (cx.lowerEntry idle e)) := by
  unfold lowerEntry
  rw [hpass]
  cases cx.tree.expr e with
  | error f => exact fun _ _ => trivial
  | ok x => exact splits_children

/-- An expression is lowered by lowering its children, and then as one whose children are lowered. An exit is
done with at once. -/
theorem ends_lowerExpr_of_own {s : State} {Q E : State → Prop} (hs : E s) (hexit : cx.tree.kind e = .ok .exit → Q s)
    (hown : Step.Ends (fun _ => True) s (cx.lowerChildren lower e) fun _ s' =>
      Attempt.Ends (fun _ => True) s' (cx.lowerExpr idle e) (fun _ => Q) fun _ => E) :
    Attempt.Ends (fun _ => True) s (cx.lowerExpr lower e) (fun _ => Q) fun _ => E := by
  by_cases hkind : cx.tree.kind e = .ok .exit
  · unfold lowerExpr
    rw [hkind, hpass]
    exact hexit hkind
  · have hsplits : Splits (cx.lowerChildren lower e) (cx.lowerExpr lower e) (cx.lowerExpr idle e) := by
      unfold lowerExpr
      refine splits_lift_bind fun kind hk => ?_
      cases kind with
      | block | noOp => exact splits_children
      | entry => exact splits_lowerEntry hpass
      | call => exact splits_lowerCall hpass
      | var | literal | externalVar | assign | copy | cachedValue => exact splits_children_bind
      | exit => exact absurd hk hkind
      | branch =>
        dsimp only
        unfold lowerBranch
        rw [hpass]
        exact splits_children_bind
      | ifElse => exact splits_lowerIf hpass
      | select => exact splits_lowerSelect hpass
      | array => exact splits_lowerArray hpass
    exact hsplits hs hown

end Context
end NodeGraph.Lowering
