import Mathlib.Data.List.Basic

/-!
# Nested containers

A `Nest κ α` is a tree with values `α` at its leaves; an inner node has a kind `κ` (the type of a
container and its keys) and its children in order.  `mapM` calls an effectful function on the leaves
from left to right.  The law that carries everything else is `leaves_mapM`: what `mapM` does is what
it does on the list of leaves, and the skeleton stays.
-/

inductive Nest (κ α : Type*) where
  | leaf (a : α)
  | node (k : κ) (ts : List (Nest κ α))

namespace Nest

variable {κ α β : Type*}

mutual

/-- The values at the leaves, from left to right. -/
def leaves : Nest κ α → List α
  | leaf a => [a]
  | node _ ts => leavesAll ts

def leavesAll : List (Nest κ α) → List α
  | [] => []
  | t :: ts => t.leaves ++ leavesAll ts

end

mutual

/-- The tree without its values. -/
def skeleton : Nest κ α → Nest κ Unit
  | leaf _ => leaf ()
  | node k ts => node k (skeletonAll ts)

def skeletonAll : List (Nest κ α) → List (Nest κ Unit)
  | [] => []
  | t :: ts => t.skeleton :: skeletonAll ts

end

mutual

def decEq [DecidableEq κ] [DecidableEq α] : (t u : Nest κ α) → Decidable (t = u)
  | leaf a, leaf b => decidable_of_iff (a = b) (by simp)
  | node k ts, node l us =>
    have := decEqAll ts us
    decidable_of_iff (k = l ∧ ts = us) (by simp)
  | leaf _, node _ _ => isFalse nofun
  | node _ _, leaf _ => isFalse nofun

def decEqAll [DecidableEq κ] [DecidableEq α] : (ts us : List (Nest κ α)) → Decidable (ts = us)
  | [], [] => isTrue rfl
  | t :: ts, u :: us =>
    have := decEq t u
    have := decEqAll ts us
    decidable_of_iff (t = u ∧ ts = us) (by simp)
  | [], _ :: _ => isFalse nofun
  | _ :: _, [] => isFalse nofun

end

instance [DecidableEq κ] [DecidableEq α] : DecidableEq (Nest κ α) := decEq

mutual

theorem length_leaves_skeleton : (t : Nest κ α) → t.skeleton.leaves.length = t.leaves.length
  | leaf _ => rfl
  | node _ ts => length_leavesAll_skeletonAll ts

theorem length_leavesAll_skeletonAll : (ts : List (Nest κ α)) →
    (leavesAll (skeletonAll ts)).length = (leavesAll ts).length
  | [] => rfl
  | t :: ts => by
    simp only [skeletonAll, leavesAll, List.length_append, length_leaves_skeleton t,
      length_leavesAll_skeletonAll ts]

end

/-- Trees of one skeleton have the same number of leaves. -/
theorem length_leaves_of_skeleton {t : Nest κ α} {u : Nest κ β} (h : t.skeleton = u.skeleton) :
    t.leaves.length = u.leaves.length := by
  rw [← t.length_leaves_skeleton, h, u.length_leaves_skeleton]

mutual

/-- A tree is its skeleton and its values. -/
theorem ext_leaves : (t u : Nest κ α) → t.skeleton = u.skeleton → t.leaves = u.leaves → t = u
  | leaf a, leaf b, _, h => congrArg leaf (List.singleton_inj.1 h)
  | node k ts, node l us, hs, h => by
    obtain ⟨rfl, hss⟩ := node.inj hs
    exact congrArg (node k) (extAll_leaves ts us hss h)
  | leaf _, node _ _, hs, _ => by cases hs
  | node _ _, leaf _, hs, _ => by cases hs

theorem extAll_leaves : (ts us : List (Nest κ α)) → skeletonAll ts = skeletonAll us →
    leavesAll ts = leavesAll us → ts = us
  | [], [], _, _ => rfl
  | t :: ts, u :: us, hs, h => by
    obtain ⟨hs, hss⟩ := List.cons.inj hs
    obtain ⟨h, hh⟩ := List.append_inj h (length_leaves_of_skeleton hs)
    rw [ext_leaves t u hs h, extAll_leaves ts us hss hh]
  | [], _ :: _, hs, _ => by cases hs
  | _ :: _, [], hs, _ => by cases hs

end

/-! ## Calling a function on the leaves -/

section Map

variable (f : α → β)

mutual

def map : Nest κ α → Nest κ β
  | leaf a => leaf (f a)
  | node k ts => node k (mapAll ts)

def mapAll : List (Nest κ α) → List (Nest κ β)
  | [] => []
  | t :: ts => map t :: mapAll ts

end

mutual

@[simp] theorem leaves_map : (t : Nest κ α) → (t.map f).leaves = t.leaves.map f
  | leaf _ => rfl
  | node _ ts => leavesAll_mapAll ts

theorem leavesAll_mapAll : (ts : List (Nest κ α)) →
    leavesAll (mapAll f ts) = (leavesAll ts).map f
  | [] => rfl
  | t :: ts => by
    rw [mapAll, leavesAll, leavesAll, List.map_append, leaves_map t, leavesAll_mapAll ts]

end

mutual

@[simp] theorem skeleton_map : (t : Nest κ α) → (t.map f).skeleton = t.skeleton
  | leaf _ => rfl
  | node k ts => congrArg (node k) (skeletonAll_mapAll ts)

theorem skeletonAll_mapAll : (ts : List (Nest κ α)) →
    skeletonAll (mapAll f ts) = skeletonAll ts
  | [] => rfl
  | t :: ts => by rw [mapAll, skeletonAll, skeletonAll, skeleton_map t, skeletonAll_mapAll ts]

end

end Map

section Monad

variable {κ α β : Type} {m : Type → Type} [Monad m]

mutual

/-- The tree of the results of `f` on the leaves. -/
def mapM (f : α → m β) : Nest κ α → m (Nest κ β)
  | leaf a => leaf <$> f a
  | node k ts => node k <$> mapAllM f ts

def mapAllM (f : α → m β) : List (Nest κ α) → m (List (Nest κ β))
  | [] => pure []
  | t :: ts => do
    let u ← t.mapM f
    let us ← mapAllM f ts
    return u :: us

end

variable [LawfulMonad m] (f : α → m β)

mutual

theorem leaves_mapM : (t : Nest κ α) →
    (fun u : Nest κ β => (u.leaves, u.skeleton)) <$> t.mapM f =
      (fun bs => (bs, t.skeleton)) <$> t.leaves.mapM f
  | leaf a => by simp [mapM, leaves, skeleton]
  | node k ts => by
    have h := congrArg (fun x => (fun p : List β × List (Nest κ Unit) => (p.1, node k p.2)) <$> x)
      (leavesAll_mapAllM ts)
    simpa only [mapM, leaves, skeleton, Functor.map_map] using h

theorem leavesAll_mapAllM : (ts : List (Nest κ α)) →
    (fun us : List (Nest κ β) => (leavesAll us, skeletonAll us)) <$> mapAllM f ts =
      (fun bs => (bs, skeletonAll ts)) <$> (leavesAll ts).mapM f
  | [] => by simp [mapAllM, leavesAll, skeletonAll]
  | t :: ts => by
    calc (fun us : List (Nest κ β) => (leavesAll us, skeletonAll us)) <$> mapAllM f (t :: ts)
        = t.mapM f >>= fun u => (fun p : List β × List (Nest κ Unit) =>
            (u.leaves ++ p.1, u.skeleton :: p.2)) <$>
              ((fun us : List (Nest κ β) => (leavesAll us, skeletonAll us)) <$> mapAllM f ts) := by
          simp [mapAllM, leavesAll, skeletonAll]
      _ = ((fun u : Nest κ β => (u.leaves, u.skeleton)) <$> t.mapM f) >>= fun q =>
            (fun bs => (q.1 ++ bs, q.2 :: skeletonAll ts)) <$> (leavesAll ts).mapM f := by
          simp [leavesAll_mapAllM ts]
      _ = (fun bs => (bs, skeletonAll (t :: ts))) <$> (leavesAll (t :: ts)).mapM f := by
          rw [leaves_mapM t]
          simp [leavesAll, skeletonAll, List.mapM_append]

end

end Monad

section Run

variable {κ α β ε σ : Type} {t : Nest κ α} {bs : List β}

/-- When the calls on the list of leaves succeed, those on the tree do. -/
theorem mapM_of_leaves {f : α → Except ε β} (h : t.leaves.mapM f = .ok bs) :
    ∃ u : Nest κ β, t.mapM f = .ok u ∧ u.leaves = bs ∧ u.skeleton = t.skeleton := by
  have hlaw := leaves_mapM f t
  rw [h] at hlaw
  cases hu : t.mapM f with
  | error e =>
    rw [hu] at hlaw
    cases hlaw
  | ok u =>
    rw [hu] at hlaw
    obtain ⟨hleaves, hskel⟩ := Prod.mk.inj (Except.ok.inj hlaw)
    exact ⟨u, rfl, hleaves, hskel⟩

/-- When the calls on the tree succeed, those on the list of leaves do. -/
theorem leaves_of_mapM {f : α → Except ε β} {u : Nest κ β} (h : t.mapM f = .ok u) :
    t.leaves.mapM f = .ok u.leaves ∧ u.skeleton = t.skeleton := by
  have hlaw := leaves_mapM f t
  rw [h] at hlaw
  cases hbs : t.leaves.mapM f with
  | error e =>
    rw [hbs] at hlaw
    cases hlaw
  | ok bs =>
    rw [hbs] at hlaw
    obtain ⟨hleaves, hskel⟩ := Prod.mk.inj (Except.ok.inj hlaw)
    exact ⟨congrArg Except.ok hleaves.symm, hskel⟩

theorem run_mapM_of_leaves {f : α → EStateM ε σ β} {s s' : σ}
    (h : (t.leaves.mapM f).run s = .ok bs s') :
    ∃ u : Nest κ β, (t.mapM f).run s = .ok u s' ∧ u.leaves = bs ∧ u.skeleton = t.skeleton := by
  have hlaw := congrArg (fun x => EStateM.run x s) (leaves_mapM f t)
  simp only [← bind_pure_comp, EStateM.run_bind, EStateM.run_pure, h] at hlaw
  cases hu : (t.mapM f).run s with
  | error e s₁ => simp [hu] at hlaw
  | ok u s₁ =>
    simp only [hu, EStateM.Result.ok.injEq, Prod.mk.injEq] at hlaw
    obtain ⟨⟨hleaves, hskel⟩, rfl⟩ := hlaw
    exact ⟨u, rfl, hleaves, hskel⟩

end Run

end Nest
