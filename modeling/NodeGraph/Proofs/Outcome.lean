import NodeGraph.Lowering.Basic

/-!
# How a computation ends

The lowering runs in a state that survives its errors, and every part of it may meet a fault. `Ends`
says how a computation ends: in a result with a postcondition, in an error with another one, or in one
of the faults that are tolerated. With no tolerated fault it is total correctness, with all of them
partial correctness, so one statement about a function serves both.

The rules for building a computation are equivalences; lists are walked with an invariant that speaks of
the part done so far.
-/
namespace NodeGraph

variable {α β : Type} {F : Fault → Prop}

/-! ## Checked values -/

/-- `x` is a value with `Q`, or one of the faults `F`. -/
def Checked.Ends (F : Fault → Prop) (x : Checked α) (Q : α → Prop) : Prop :=
  match x with
  | .ok a => Q a
  | .error f => F f

namespace Checked

variable {l : List α} {x : Checked α} {f : α → Checked β} {a : α} {P Q : α → Prop} {p : α → Checked Bool}
  {b : β} {fault : Fault} {bs : List β}

theorem ends_ok : Ends F (.ok a) Q ↔ Q a := Iff.rfl

theorem ends_bind {Q : β → Prop} : Ends F (x >>= f) Q ↔ Ends F x fun a => Ends F (f a) Q := by
  cases x <;> rfl

theorem Ends.mono (h : Ends F x P) (hpq : ∀ a, P a → Q a) : Ends F x Q := by
  cases x with
  | ok a => exact hpq a h
  | error f => exact h

/-- More faults may be tolerated. -/
theorem Ends.tolerate {G : Fault → Prop} (h : Ends F x Q) (hfg : ∀ f, F f → G f) : Ends G x Q := by
  cases x with
  | ok a => exact h
  | error f => exact hfg f h

/-- A value whose faults are not tolerated is there. -/
theorem Ends.exists_ok (h : Ends (fun _ => False) x Q) : ∃ a, x = .ok a ∧ Q a := by
  cases x with
  | ok a => exact ⟨a, rfl, h⟩
  | error f => exact h.elim

theorem Ends.of_ok (h : Ends F x Q) (hx : x = .ok a) : Q a := by
  rw [hx] at h
  exact h

/-- A fault is tolerated, or there is none. -/
theorem ends_of_exists {B : Prop} (h : B ∨ ∃ a, x = .ok a) (hq : ∀ a, x = .ok a → Q a) : Ends (fun _ => B) x Q := by
  cases x with
  | ok a => exact hq a rfl
  | error f => exact h.resolve_right (by simp)

/-- A value and what can be decided about it are found by evaluation. -/
theorem exists_ok_of_any [DecidablePred P] (h : (x.toOption.any fun a => decide (P a)) = true) :
    ∃ a, x = .ok a ∧ P a := by
  cases x with
  | ok a => exact ⟨a, rfl, of_decide_eq_true h⟩
  | error f => cases h

/-- What is known of every value of `x` is known besides. -/
theorem Ends.and (h : Ends F x P) (h' : Ends (fun _ => True) x Q) : Ends F x fun a => P a ∧ Q a := by
  cases x with
  | ok a => exact ⟨h, h'⟩
  | error f => exact h

theorem ok_bind : (.ok a : Checked α) >>= f = f a := rfl

/-- A bind that has a value has one in between. -/
theorem bind_eq_ok : x >>= f = .ok b ↔ ∃ a, x = .ok a ∧ f a = .ok b := by
  cases x with
  | ok a =>
    constructor
    · intro h; exact ⟨a, rfl, h⟩
    · rintro ⟨_, ⟨⟩, h⟩; exact h
  | error fault =>
    constructor
    · intro h; cases h
    · rintro ⟨_, ⟨⟩, _⟩

/-- A bind that ends in a fault has it from one of its parts. -/
theorem bind_eq_error : x >>= f = .error fault ↔ x = .error fault ∨ ∃ a, x = .ok a ∧ f a = .error fault := by
  cases x with
  | ok a =>
    constructor
    · intro h; exact .inr ⟨a, rfl, h⟩
    · rintro (h | ⟨_, ⟨⟩, h⟩)
      · cases h
      · exact h
  | error fault' =>
    constructor
    · intro h; cases h; exact .inl rfl
    · rintro (h | ⟨_, ⟨⟩, _⟩)
      cases h
      rfl

theorem map_eq_ok {f : α → β} : f <$> x = .ok b ↔ ∃ a, x = .ok a ∧ f a = b := by
  rw [map_eq_pure_bind, bind_eq_ok]
  constructor
  · rintro ⟨a, hx, h⟩
    exact ⟨a, hx, Except.ok.inj h⟩
  · rintro ⟨a, hx, rfl⟩
    exact ⟨a, hx, rfl⟩

theorem get_eq_ok {missing : Nat → Fault} {arena : List α} {id : Nat} :
    Checked.get missing arena id = .ok a ↔ arena[id]? = some a := by
  unfold Checked.get
  cases arena[id]? <;> simp

/-! ### Lists -/

theorem mapM_cons (f : α → Checked β) (a : α) (l : List α) :
    (a :: l).mapM f = f a >>= fun b => l.mapM f >>= fun bs => .ok (b :: bs) := by
  rw [List.mapM_cons]; rfl

/-- Values that are there one by one are there together. -/
theorem exists_mapM (h : ∀ a ∈ l, ∃ b, f a = .ok b) : ∃ bs, l.mapM f = .ok bs := by
  induction l with
  | nil => exact ⟨[], rfl⟩
  | cons a l ih =>
    obtain ⟨b, hb⟩ := h a (by simp)
    obtain ⟨bs, hbs⟩ := ih fun a' ha => h a' (by simp [ha])
    exact ⟨b :: bs, by rw [mapM_cons, hb, hbs]; rfl⟩

theorem mapM_cons_eq_ok (h : (a :: l).mapM f = .ok bs) :
    ∃ b bs', bs = b :: bs' ∧ f a = .ok b ∧ l.mapM f = .ok bs' := by
  rw [mapM_cons] at h
  obtain ⟨b, hb, h⟩ := bind_eq_ok.1 h
  obtain ⟨bs', hbs, h⟩ := bind_eq_ok.1 h
  cases h
  exact ⟨b, bs', rfl, hb, hbs⟩

theorem mem_of_mapM (h : l.mapM f = .ok bs) : ∀ b ∈ bs, ∃ a ∈ l, f a = .ok b := by
  induction l generalizing bs with
  | nil => cases h; simp
  | cons a l ih =>
    obtain ⟨b, bs', rfl, hb, hbs⟩ := mapM_cons_eq_ok h
    intro b' hb'
    rcases List.mem_cons.1 hb' with rfl | hb'
    · exact ⟨a, by simp, hb⟩
    · obtain ⟨a', ha, h'⟩ := ih hbs b' hb'
      exact ⟨a', by simp [ha], h'⟩

theorem mapM_mem (h : l.mapM f = .ok bs) : ∀ a ∈ l, ∃ b ∈ bs, f a = .ok b := by
  induction l generalizing bs with
  | nil => simp
  | cons a l ih =>
    obtain ⟨b, bs', rfl, hb, hbs⟩ := mapM_cons_eq_ok h
    intro a' ha'
    rcases List.mem_cons.1 ha' with rfl | ha'
    · exact ⟨b, by simp, hb⟩
    · obtain ⟨b', hb', h'⟩ := ih hbs a' ha'
      exact ⟨b', by simp [hb'], h'⟩

theorem exists_of_mapM_eq_error (h : l.mapM f = .error fault) : ∃ a ∈ l, f a = .error fault := by
  induction l with
  | nil => cases h
  | cons a l ih =>
    rw [mapM_cons] at h
    cases ha : f a with
    | error fault' =>
      rw [ha] at h
      cases h
      exact ⟨a, by simp, ha⟩
    | ok b =>
      rw [ha, ok_bind] at h
      cases hl : l.mapM f with
      | ok bs => rw [hl] at h; cases h
      | error fault' =>
        rw [hl] at h
        cases h
        obtain ⟨a', ha', hf⟩ := ih hl
        exact ⟨a', by simp [ha'], hf⟩

theorem findM?_cons (p : α → Checked Bool) (a : α) (l : List α) :
    (a :: l).findM? p = p a >>= fun b => if b then .ok (some a) else l.findM? p := by
  rw [List.findM?]
  congr 1
  funext b
  cases b <;> rfl

/-- A search ends if every test does, and what it finds is a member that passed. -/
theorem exists_findM? (h : ∀ a ∈ l, ∃ b, p a = .ok b) :
    ∃ r, l.findM? p = .ok r ∧ ∀ a ∈ r, a ∈ l ∧ p a = .ok true := by
  induction l with
  | nil => exact ⟨none, rfl, by simp⟩
  | cons a l ih =>
    obtain ⟨b, hb⟩ := h a (by simp)
    rw [findM?_cons, hb]
    cases b with
    | true => exact ⟨some a, rfl, by simp [hb]⟩
    | false =>
      obtain ⟨r, hr, hmem⟩ := ih fun a' ha => h a' (by simp [ha])
      exact ⟨r, hr, fun a' ha => ⟨by simp [(hmem a' ha).1], (hmem a' ha).2⟩⟩

/-- What a search finds is the first member that passes. -/
theorem first_of_findM? (h : l.findM? p = .ok (some a)) :
    ∃ front rest, l = front ++ a :: rest ∧ p a = .ok true ∧ ∀ b ∈ front, p b = .ok false := by
  induction l with
  | nil => cases h
  | cons x l ih =>
    rw [findM?_cons] at h
    obtain ⟨b, hb, h⟩ := bind_eq_ok.1 h
    cases b with
    | true =>
      cases h
      exact ⟨[], l, rfl, hb, by simp⟩
    | false =>
      obtain ⟨front, rest, rfl, ha, hfront⟩ := ih h
      exact ⟨x :: front, rest, rfl, ha, List.forall_mem_cons.2 ⟨hb, hfront⟩⟩

theorem mem_of_findM? (h : l.findM? p = .ok (some a)) : a ∈ l ∧ p a = .ok true := by
  obtain ⟨front, rest, rfl, ha, -⟩ := first_of_findM? h
  exact ⟨by simp, ha⟩

theorem false_of_findM? (h : l.findM? p = .ok none) : ∀ a ∈ l, p a = .ok false := by
  induction l with
  | nil => simp
  | cons x l ih =>
    rw [findM?_cons] at h
    obtain ⟨b, hb, h⟩ := bind_eq_ok.1 h
    cases b with
    | true => cases h
    | false =>
      intro a ha
      rcases List.mem_cons.1 ha with rfl | ha
      · exact hb
      · exact ih h a ha

/-- A search ends in a fault if a test does, and all tests before it fail. -/
theorem findM?_eq_error :
    l.findM? p = .error fault ↔
      ∃ front a rest, l = front ++ a :: rest ∧ p a = .error fault ∧ ∀ b ∈ front, p b = .ok false := by
  induction l with
  | nil =>
    refine ⟨fun h => (by cases h), ?_⟩
    rintro ⟨front, a, rest, h, -⟩
    simp at h
  | cons x l ih =>
    rw [findM?_cons]
    constructor
    · intro h
      cases hx : p x with
      | error fault' =>
        rw [hx] at h
        cases h
        exact ⟨[], x, l, rfl, hx, by simp⟩
      | ok b =>
        rw [hx, ok_bind] at h
        cases b with
        | true => cases h
        | false =>
          obtain ⟨front, a, rest, rfl, ha, hfront⟩ := ih.1 h
          exact ⟨x :: front, a, rest, rfl, ha, List.forall_mem_cons.2 ⟨hx, hfront⟩⟩
    · rintro ⟨front, a, rest, h, ha, hfront⟩
      cases front with
      | nil =>
        obtain ⟨rfl, rfl⟩ := List.cons.inj h
        rw [ha]
        rfl
      | cons y front =>
        obtain ⟨rfl, rfl⟩ := List.cons.inj h
        rw [hfront x (by simp), ok_bind]
        exact ih.2 ⟨front, a, rest, rfl, ha, fun b hb => hfront b (by simp [hb])⟩

theorem findSomeM?_cons (f : α → Checked (Option β)) (a : α) (l : List α) :
    (a :: l).findSomeM? f = f a >>= fun r => match r with
      | some b => .ok (some b)
      | none => l.findSomeM? f := by
  rw [List.findSomeM?]
  rfl

theorem first_of_findSomeM? {f : α → Checked (Option β)} (h : l.findSomeM? f = .ok (some b)) :
    ∃ front a rest, l = front ++ a :: rest ∧ f a = .ok (some b) ∧ ∀ x ∈ front, f x = .ok none := by
  induction l with
  | nil => cases h
  | cons a l ih =>
    rw [findSomeM?_cons] at h
    obtain ⟨r, hr, h⟩ := bind_eq_ok.1 h
    cases r with
    | some b' =>
      cases h
      exact ⟨[], a, l, rfl, hr, by simp⟩
    | none =>
      obtain ⟨front, a', rest, rfl, ha, hfront⟩ := ih h
      exact ⟨a :: front, a', rest, rfl, ha, List.forall_mem_cons.2 ⟨hr, hfront⟩⟩

theorem mem_of_findSomeM? {f : α → Checked (Option β)} (h : l.findSomeM? f = .ok (some b)) :
    ∃ a ∈ l, f a = .ok (some b) := by
  obtain ⟨front, a, rest, rfl, ha, -⟩ := first_of_findSomeM? h
  exact ⟨a, by simp, ha⟩

theorem none_of_findSomeM? {f : α → Checked (Option β)} (h : l.findSomeM? f = .ok none) :
    ∀ a ∈ l, f a = .ok none := by
  induction l with
  | nil => simp
  | cons x l ih =>
    rw [findSomeM?_cons] at h
    obtain ⟨r, hr, h⟩ := bind_eq_ok.1 h
    cases r with
    | some b => cases h
    | none => exact List.forall_mem_cons.2 ⟨hr, ih h⟩

theorem exists_findSomeM? {f : α → Checked (Option β)} (h : ∀ a ∈ l, ∃ r, f a = .ok r) :
    ∃ r, l.findSomeM? f = .ok r ∧ ∀ b ∈ r, ∃ a ∈ l, f a = .ok (some b) := by
  induction l with
  | nil => exact ⟨none, rfl, by simp⟩
  | cons a l ih =>
    obtain ⟨r, hr⟩ := h a (by simp)
    rw [findSomeM?_cons, hr]
    cases r with
    | some b => exact ⟨some b, rfl, by simp [hr]⟩
    | none =>
      obtain ⟨r, hr, hmem⟩ := ih fun a' ha => h a' (by simp [ha])
      exact ⟨r, hr, fun b hb => by
        obtain ⟨a', ha, h'⟩ := hmem b hb
        exact ⟨a', by simp [ha], h'⟩⟩

end Checked

/-! ## Arenas -/

section Arenas

variable {arena : List α} {a b : α} {i j : Nat}

theorem eq_or_of_getElem?_snoc (h : (arena ++ [a])[i]? = some b) : arena[i]? = some b ∨ i = arena.length ∧ b = a := by
  rcases Nat.lt_or_ge i arena.length with hlt | hge
  · rw [List.getElem?_append_left hlt] at h
    exact .inl h
  · rw [List.getElem?_append_right hge, List.getElem?_singleton] at h
    split at h
    · next hzero =>
      cases h
      exact .inr ⟨Nat.le_antisymm (Nat.le_of_sub_eq_zero hzero) hge, rfl⟩
    · cases h

theorem eq_or_of_getElem?_set (h : (arena.set i a)[j]? = some b) : i = j ∧ b = a ∨ i ≠ j ∧ arena[j]? = some b := by
  rw [List.getElem?_set] at h
  split at h
  · next hsame =>
    split at h
    · cases h
      exact .inl ⟨hsame, rfl⟩
    · cases h
  · next hne => exact .inr ⟨hne, h⟩

end Arenas

/-! ## Typed values -/

/-- A bind that has a typed value has one in between. -/
theorem Typed.bind_eq_ok {x : Typed α} {f : α → Typed β} {b : β} :
    (x >>= f).run = .ok (.ok b) ↔ ∃ a, x.run = .ok (.ok a) ∧ (f a).run = .ok (.ok b) := by
  rw [ExceptT.run_bind, Checked.bind_eq_ok]
  constructor
  · rintro ⟨_ | a, hx, hf⟩
    · cases hf
    · exact ⟨a, hx, hf⟩
  · rintro ⟨a, hx, hf⟩
    exact ⟨.ok a, hx, hf⟩

/-! ## Steps and attempts -/

namespace Lowering

variable {s s' : State} {x : Checked α}

/-- `m` run from `s` ends in a result with `Q`, or in one of the faults `F`. -/
def Step.Ends (F : Fault → Prop) (s : State) (m : Step α) (Q : α → State → Prop) : Prop :=
  Checked.Ends F (m s) fun r => Q r.1 r.2

/-- `m` run from `s` ends in a result with `Q`, in an error with `E`, or in one of the faults `F`. -/
def Attempt.Ends (F : Fault → Prop) (s : State) (m : Attempt α) (Q : α → State → Prop)
    (E : LowerError → State → Prop) : Prop :=
  Step.Ends F s m.run fun r s' => match r with
    | .ok a => Q a s'
    | .error e => E e s'

namespace Step

variable {Q : α → State → Prop} {m : Step α}

theorem Ends.mono {P : α → State → Prop} (h : Ends F s m P) (hpq : ∀ a s', P a s' → Q a s') : Ends F s m Q :=
  Checked.Ends.mono h fun r => hpq r.1 r.2

theorem ends_pure {a : α} : Ends F s (pure a) Q ↔ Q a s := Iff.rfl

theorem ends_bind {f : α → Step β} {Q : β → State → Prop} :
    Ends F s (m >>= f) Q ↔ Ends F s m fun a s' => Ends F s' (f a) Q := by
  show Checked.Ends F (m s >>= fun r => f r.1 r.2) _ ↔ _
  rw [Checked.ends_bind]
  rfl

theorem ends_get {Q : State → State → Prop} : Ends F s get Q ↔ Q s s := Iff.rfl

theorem ends_set {Q : PUnit → State → Prop} : Ends F s (set s') Q ↔ Q ⟨⟩ s' := Iff.rfl

theorem ends_modify {f : State → State} {Q : PUnit → State → Prop} :
    Ends F s (modify f) Q ↔ Q ⟨⟩ (f s) := Iff.rfl

theorem ends_lift : Ends F s (liftM x : Step α) Q ↔ Checked.Ends F x fun a => Q a s := by
  cases x <;> rfl

theorem ends_get_bind {f : State → Step β} {Q : β → State → Prop} :
    Ends F s (get >>= f) Q ↔ Ends F s (f s) Q := Iff.rfl

/-- Where faults are tolerated, what follows a value need only be right if there is one. -/
theorem ends_lift_bind {f : α → Step β} {Q : β → State → Prop}
    (h : ∀ a, x = .ok a → Ends (fun _ => True) s (f a) Q) : Ends (fun _ => True) s (liftM x >>= f) Q := by
  cases x with
  | ok a => exact h a rfl
  | error fault => trivial

theorem ends_true : Ends (fun _ => True) s m fun _ _ => True := by
  unfold Ends
  cases m s <;> trivial

theorem bind_apply (m : Step α) (f : α → Step β) (s : State) : (m >>= f) s = m s >>= fun r => f r.1 r.2 := rfl

theorem get_bind_apply (f : State → Step α) (s : State) : (get >>= f) s = f s s := rfl

theorem lift_bind_apply (x : Checked α) (f : α → Step β) (s : State) :
    (liftM x >>= f) s = x >>= fun a => f a s := by
  cases x <;> rfl

/-- A walk over a list, with an invariant over the part done. -/
theorem ends_forM {l : List α} {f : α → Step PUnit} (I : List α → State → Prop) (h0 : I [] s)
    (hstep : ∀ done a rest, l = done ++ a :: rest → ∀ s, I done s →
      Ends F s (f a) fun _ s' => I (done ++ [a]) s') :
    Ends F s (l.forM f) fun _ s' => I l s' := by
  suffices h : ∀ rest done s, l = done ++ rest → I done s →
      Ends F s (rest.forM f) fun _ s' => I l s' from h l [] s rfl h0
  intro rest
  induction rest with
  | nil =>
    intro done s hl hi
    rw [hl, List.append_nil]
    exact hi
  | cons a rest ih =>
    intro done s hl hi
    rw [List.forM, ends_bind]
    refine (hstep done a rest hl s hi).mono fun _ s' hi' => ?_
    exact ih (done ++ [a]) s' (by simp [hl]) hi'

end Step

namespace Attempt

variable {P Q : α → State → Prop} {E E' : LowerError → State → Prop} {m : Attempt α} {l : List α}
  {f : α → Attempt β}

theorem Ends.mono (h : Ends F s m P E') (hpq : ∀ a s', P a s' → Q a s') (he : ∀ e s', E' e s' → E e s') :
    Ends F s m Q E := by
  refine Step.Ends.mono h fun r s' hr => ?_
  cases r with
  | ok a => exact hpq a s' hr
  | error e => exact he e s' hr

theorem Ends.both (h : Ends F s m P E) (h' : Ends (fun _ => True) s m Q E') :
    Ends F s m (fun a s' => P a s' ∧ Q a s') fun e s' => E e s' ∧ E' e s' := by
  refine Checked.Ends.mono (Checked.Ends.and h h') ?_
  rintro ⟨_ | _, _⟩ hr <;> exact hr

theorem Ends.and (h : Ends F s m P E) (h' : Ends (fun _ => True) s m Q E') :
    Ends F s m (fun a s' => P a s' ∧ Q a s') E := (h.both h').mono (fun _ _ h => h) fun _ _ h => h.1

theorem ends_bind {Q : β → State → Prop} :
    Ends F s (m >>= f) Q E ↔ Ends F s m (fun a s' => Ends F s' (f a) Q E) E := by
  unfold Ends
  rw [ExceptT.run_bind, Step.ends_bind]
  constructor <;>
  · intro h
    refine h.mono fun r s' hr => ?_
    cases r <;> exact hr

theorem ends_get_bind {f : State → Attempt β} {Q : β → State → Prop} :
    Ends F s (get >>= f) Q E ↔ Ends F s (f s) Q E := Iff.rfl

theorem ends_step {m : Step α} : Ends F s (liftM m : Attempt α) Q E ↔ Step.Ends F s m Q := by
  unfold Ends
  show Step.Ends F s (ExceptT.run (ExceptT.lift m)) _ ↔ _
  rw [ExceptT.run_lift, map_eq_pure_bind, Step.ends_bind]
  rfl

theorem ends_lift : Ends F s (liftM x : Attempt α) Q E ↔ Checked.Ends F x fun a => Q a s := by
  cases x <;> rfl

theorem ends_lift_bind {Q : β → State → Prop} (h : ∀ a, x = .ok a → Ends (fun _ => True) s (f a) Q E) :
    Ends (fun _ => True) s (liftM x >>= f) Q E := by
  cases x with
  | ok a => exact h a rfl
  | error fault => trivial

theorem ends_true : Ends (fun _ => True) s m (fun _ _ => True) fun _ _ => True :=
  Step.ends_true.mono fun r _ _ => by cases r <;> trivial

/-- A walk over a list, with an invariant over the part done. -/
theorem ends_forM {f : α → Attempt PUnit} (I : List α → State → Prop) (h0 : I [] s)
    (hstep : ∀ done a rest, l = done ++ a :: rest → ∀ s, I done s →
      Ends F s (f a) (fun _ s' => I (done ++ [a]) s') E) : Ends F s (l.forM f) (fun _ s' => I l s') E := by
  suffices h : ∀ rest done s, l = done ++ rest → I done s →
      Ends F s (rest.forM f) (fun _ s' => I l s') E from h l [] s rfl h0
  intro rest
  induction rest with
  | nil =>
    intro done s hl hi
    rw [hl, List.append_nil]
    exact hi
  | cons a rest ih =>
    intro done s hl hi
    rw [List.forM, ends_bind]
    refine (hstep done a rest hl s hi).mono (fun _ s' hi' => ?_) fun _ _ he => he
    exact ih (done ++ [a]) s' (by simp [hl]) hi'

/-- The results of a walk over a list, with an invariant over the part done and what was found there. -/
theorem ends_mapM (I : List (α × β) → State → Prop) (h0 : I [] s)
    (hstep : ∀ a ∈ l, ∀ found s, I found s → Ends F s (f a) (fun b s' => I (found ++ [(a, b)]) s') E) :
    Ends F s (l.mapM f) (fun bs s' => bs.length = l.length ∧ I (l.zip bs) s') E := by
  suffices h : ∀ (rest : List α) found s, (∀ a ∈ rest, a ∈ l) → I found s →
      Ends F s (rest.mapM f) (fun bs s' => bs.length = rest.length ∧ I (found ++ rest.zip bs) s') E from
    h l [] s (fun _ ha => ha) h0
  intro rest
  induction rest with
  | nil =>
    intro found s _ hi
    exact ⟨rfl, by simpa using hi⟩
  | cons a rest ih =>
    intro found s hl hi
    rw [List.mapM_cons, ends_bind]
    refine (hstep a (hl a (by simp)) found s hi).mono (fun b s' hi' => ?_) fun _ _ he => he
    rw [ends_bind]
    refine (ih (found ++ [(a, b)]) s' (fun a' ha => hl a' (by simp [ha])) hi').mono (fun bs s'' h => ?_)
      fun _ _ he => he
    exact ⟨by simp [h.1], by simpa using h.2⟩

/-! ### Errors -/

section Raises

variable {E E' : LowerError → Prop}

/-- The errors of an attempt have a property, from whatever state it starts. -/
def Raises (E : LowerError → Prop) (m : Attempt α) : Prop :=
  ∀ s error s', m.run s = .ok (.error error, s') → E error

theorem raises_iff : Raises E m ↔ ∀ s, Ends (fun _ => True) s m (fun _ _ => True) fun error _ => E error := by
  constructor
  · intro h s
    unfold Ends Step.Ends
    cases hrun : m.run s with
    | error fault => trivial
    | ok r =>
      obtain ⟨r, s'⟩ := r
      cases r with
      | ok a => trivial
      | error error => exact h s error s' hrun
  · intro h s error s' hrun
    have hends := h s
    unfold Ends Step.Ends at hends
    rw [hrun] at hends
    exact hends

theorem Raises.mono (h : Raises E m) (hE : ∀ error, E error → E' error) : Raises E' m :=
  fun s error s' hrun => hE error (h s error s' hrun)

theorem raises_pure {a : α} : Raises E (pure a) := raises_iff.2 fun _ => trivial

theorem raises_throw {error : LowerError} (h : E error) : Raises E (throw error : Attempt α) :=
  raises_iff.2 fun _ => h

theorem raises_bind (hm : Raises E m) (hf : ∀ a, Raises E (f a)) :
    Raises E (m >>= f) := raises_iff.2 fun s => ends_bind.2
  ((raises_iff.1 hm s).mono (fun a s' _ => raises_iff.1 (hf a) s') fun _ _ h => h)

theorem raises_get_bind {f : State → Attempt α} (hf : ∀ s, Raises E (f s)) : Raises E (get >>= f) :=
  raises_iff.2 fun s => ends_get_bind.2 (raises_iff.1 (hf s) s)

/-- A step raises no errors. -/
theorem raises_step {m : Step α} : Raises E (liftM m : Attempt α) := raises_iff.2 fun _ =>
  ends_step.2 Step.ends_true

theorem raises_step_bind {m : Step α} (hf : ∀ a, Raises E (f a)) :
    Raises E (liftM m >>= f) := raises_bind raises_step hf

theorem raises_lift_bind {r : Checked α} (hf : ∀ a, r = .ok a → Raises E (f a)) :
    Raises E (liftM r >>= f) := raises_iff.2 fun s => ends_lift_bind fun a ha => raises_iff.1 (hf a ha) s

end Raises

end Attempt
end Lowering
end NodeGraph
