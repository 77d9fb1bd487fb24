import WeightedGraph.Error

/-!
Computations that change a state in place and may fail.

A failure takes nothing back: the state is there after it as well, with whatever was written before.

* `InPlace`: such computations. `InPlace.lift` and `InPlace.ask` only check or answer, without the
  state and with it.
* `InPlace.outcome`: what a computation comes to, with the state that it leaves in either case.
  `InPlace.forget`: the same where a failure takes the state with it; `InPlace.forget_bind`,
  `InPlace.forget_ask_bind` and their like say what this does to computations one after another.
* `InPlace.Reads`, `InPlace.Succeeds`, `InPlace.Atomic`: nothing is written, nothing fails, a failure
  leaves the state as it was. Checks before writes are atomic: `InPlace.Reads.bind_atomic`,
  `InPlace.Succeeds.atomic`.
-/

namespace WeightedGraph

/-- A computation that may fail and changes a state in place, which it leaves in some state either
way. -/
abbrev InPlace (σ α : Type) :=
  EStateM GraphError σ α

namespace InPlace

variable {σ α β : Type}

/-- A computation on no state. -/
def lift (x : Except GraphError α) : InPlace σ α := fun s =>
  match x with
  | .ok a => .ok a s
  | .error e => .error e s

/-- A check or a question, which reads the state. -/
def ask (f : σ → Except GraphError α) : InPlace σ α := fun s =>
  lift (f s) s

/-! ### Outcomes -/

/-- The answer or the cause of the failure, with the state that is there in either case. -/
def outcome : EStateM.Result GraphError σ α → Except GraphError α × σ
  | .ok a s => (.ok a, s)
  | .error e s => (.error e, s)

/-- The outcome without the state that a failure leaves. -/
def forget : EStateM.Result GraphError σ α → Except GraphError (α × σ)
  | .ok a s => .ok (a, s)
  | .error e _ => .error e

/-- One computation after another. -/
theorem forget_bind (x : InPlace σ α) (f : α → InPlace σ β) (s : σ) :
    forget ((x >>= f).run s) = forget (x.run s) >>= fun r => forget ((f r.1).run r.2) := by
  show forget (EStateM.bind x f s) = forget (x s) >>= _
  rw [EStateM.bind]
  cases x s <;> rfl

theorem forget_map (f : α → β) (x : InPlace σ α) (s : σ) :
    forget ((f <$> x).run s) = forget (x.run s) >>= fun r => .ok (f r.1, r.2) := by
  show forget (EStateM.map f x s) = forget (x s) >>= _
  rw [EStateM.map]
  cases x s <;> rfl

theorem forget_lift_bind (x : Except GraphError α) (f : α → InPlace σ β) (s : σ) :
    forget ((lift x >>= f).run s) = x >>= fun a => forget ((f a).run s) := by
  cases x <;> rfl

theorem forget_ask_bind (f : σ → Except GraphError α) (k : α → InPlace σ β) (s : σ) :
    forget ((ask f >>= k).run s) = f s >>= fun a => forget ((k a).run s) :=
  forget_lift_bind (f s) k s

theorem run_ask (f : σ → Except GraphError α) (s : σ) : (ask f).run s = (lift (f s)).run s :=
  rfl

theorem forget_lift (x : Except GraphError α) (s : σ) :
    forget ((lift x).run s) = x >>= fun a => .ok (a, s) := by
  cases x <;> rfl

/-- A computation that comes to a result. -/
theorem run_eq_ok {x : InPlace σ α} {s t : σ} {a : α} (h : forget (x.run s) = .ok (a, t)) :
    x.run s = .ok a t := by
  cases hx : x.run s with
  | ok b u =>
      rw [hx] at h
      cases h
      rfl
  | error e u =>
      rw [hx] at h
      cases h

theorem run_map_eq_ok {x : InPlace σ α} {s t : σ} {a : α} (h : forget (x.run s) = .ok (a, t))
    {f : α → β} : (f <$> x).run s = .ok (f a) t := by
  refine run_eq_ok ?_
  rw [forget_map, h]
  rfl

/-! ### Failures that leave no trace -/

/-- The computation writes nothing. -/
def Reads (x : InPlace σ α) : Prop :=
  ∀ s, (outcome (x.run s)).2 = s

/-- The computation does not fail. -/
def Succeeds (x : InPlace σ α) : Prop :=
  ∀ s, ∃ a t, x.run s = .ok a t

/-- If the computation fails, the state is as it was. -/
def Atomic (x : InPlace σ α) : Prop :=
  ∀ s e t, x.run s = .error e t → t = s

theorem Reads.ask (f : σ → Except GraphError α) : Reads (ask f) := by
  intro s
  show (outcome (lift (f s) s)).2 = s
  cases f s <;> rfl

theorem Reads.throw (e : GraphError) : Reads (throw e : InPlace σ α) := fun _ => rfl

theorem Reads.atomic {x : InPlace σ α} (h : Reads x) : Atomic x := by
  intro s e t ht
  have hs := h s
  rwa [ht] at hs

theorem Succeeds.pure (a : α) : Succeeds (pure a : InPlace σ α) := fun s => ⟨a, s, rfl⟩

theorem Succeeds.modifyGet (f : σ → α × σ) : Succeeds (modifyGet f : InPlace σ α) := fun s =>
  ⟨(f s).1, (f s).2, rfl⟩

theorem Succeeds.modify (f : σ → σ) : Succeeds (modify f : InPlace σ PUnit) := fun s =>
  ⟨⟨⟩, f s, rfl⟩

theorem Succeeds.bind {x : InPlace σ α} {f : α → InPlace σ β} (hx : Succeeds x)
    (hf : ∀ a, Succeeds (f a)) : Succeeds (x >>= f) := by
  intro s
  obtain ⟨a, t, ht⟩ := hx s
  obtain ⟨b, u, hu⟩ := hf a t
  refine ⟨b, u, ?_⟩
  show EStateM.bind x f s = _
  simp only [EStateM.bind, show x s = .ok a t from ht]
  exact hu

theorem Succeeds.atomic {x : InPlace σ α} (h : Succeeds x) : Atomic x := by
  intro s e t ht
  obtain ⟨a, u, hu⟩ := h s
  cases hu.symm.trans ht

/-- A check that writes nothing may stand before an atomic computation. -/
theorem Reads.bind_atomic {x : InPlace σ α} {f : α → InPlace σ β} (hx : Reads x)
    (hf : ∀ a, Atomic (f a)) : Atomic (x >>= f) := by
  intro s e t h
  have hs := hx s
  change EStateM.bind x f s = .error e t at h
  rw [EStateM.bind] at h
  cases hrun : x s with
  | ok a u =>
      rw [hrun] at h
      obtain rfl : u = s := by simpa only [EStateM.run, hrun, outcome] using hs
      exact hf a u e t h
  | error e' u =>
      rw [hrun] at h
      cases h
      simpa only [EStateM.run, hrun, outcome] using hs

theorem Atomic.ask_bind (f : σ → Except GraphError α) {k : α → InPlace σ β}
    (h : ∀ a, Atomic (k a)) : Atomic (InPlace.ask f >>= k) :=
  (Reads.ask f).bind_atomic h

theorem Atomic.modifyGet (f : σ → α × σ) : Atomic (modifyGet f : InPlace σ α) :=
  (Succeeds.modifyGet f).atomic

/-- What writes before it fails is not atomic. -/
example : ¬ Atomic (do modify (· + 1); throw .emptyGraph : InPlace Nat Unit) := fun h =>
  absurd (h 0 .emptyGraph 1 rfl) (by decide)

theorem Atomic.map {x : InPlace σ α} (h : Atomic x) (f : α → β) : Atomic (f <$> x) := by
  intro s e t ht
  change EStateM.map f x s = .error e t at ht
  rw [EStateM.map] at ht
  cases hrun : x s with
  | ok a u =>
      rw [hrun] at ht
      cases ht
  | error e' u =>
      rw [hrun] at ht
      cases ht
      exact h s e t hrun

/-- An atomic computation that fails leaves the state in which it began. -/
theorem Atomic.run_eq_error {x : InPlace σ α} (h : Atomic x) {s : σ} {e : GraphError}
    (he : forget (x.run s) = .error e) : x.run s = .error e s := by
  cases hx : x.run s with
  | ok a t =>
      rw [hx] at he
      cases he
  | error e' t =>
      obtain rfl := h s e' t hx
      rw [hx] at he
      cases he
      rfl

end InPlace

end WeightedGraph
