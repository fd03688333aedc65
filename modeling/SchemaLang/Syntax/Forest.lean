/-!
# Forests of labelled nodes over tokens

A forest is a row of tokens and labelled nodes, each node holding a forest of
its own. A row is read element by element with the rest of the row as the
last argument, so one plain induction covers both a row and what it holds.
-/

set_option autoImplicit false

namespace SchemaLang

inductive Forest (α τ : Type) where
  | nil
  | leaf (token : τ) (next : Forest α τ)
  | node (label : α) (inside next : Forest α τ)

namespace Forest

variable {α β τ : Type}

protected def append : Forest α τ → Forest α τ → Forest α τ
  | nil, g => g
  | leaf t next, g => leaf t (next.append g)
  | node a inside next, g => node a inside (next.append g)

instance : Append (Forest α τ) := ⟨Forest.append⟩

@[simp] theorem nil_append (g : Forest α τ) : nil ++ g = g := rfl

@[simp] theorem leaf_append (t : τ) (f g : Forest α τ) : leaf t f ++ g = leaf t (f ++ g) := rfl

@[simp] theorem node_append (a : α) (i f g : Forest α τ) :
    node a i f ++ g = node a i (f ++ g) := rfl

@[simp] theorem append_nil (f : Forest α τ) : f ++ nil = f := by
  induction f with
  | nil => rfl
  | leaf t next ih => simp [ih]
  | node a inside next _ ih => simp [ih]

theorem append_assoc (f g h : Forest α τ) : f ++ g ++ h = f ++ (g ++ h) := by
  induction f with
  | nil => rfl
  | leaf t next ih => simp [ih]
  | node a inside next _ ih => simp [ih]

def leaves : Forest α τ → List τ
  | nil => []
  | leaf t next => t :: next.leaves
  | node _ inside next => inside.leaves ++ next.leaves

@[simp] theorem leaves_nil : (nil : Forest α τ).leaves = [] := rfl

@[simp] theorem leaves_append (f g : Forest α τ) : (f ++ g).leaves = f.leaves ++ g.leaves := by
  induction f with
  | nil => rfl
  | leaf t next ih => simp [leaves, ih]
  | node a inside next _ ih => simp [leaves, ih]

def ofTokens : List τ → Forest α τ
  | [] => nil
  | t :: ts => leaf t (ofTokens ts)

@[simp] theorem leaves_ofTokens (ts : List τ) : (ofTokens ts : Forest α τ).leaves = ts := by
  induction ts with
  | nil => rfl
  | cons t ts ih => simp [ofTokens, leaves, ih]

def nodeCount : Forest α τ → Nat
  | nil => 0
  | leaf _ next => next.nodeCount
  | node _ inside next => 1 + inside.nodeCount + next.nodeCount

def labels : Forest α τ → List α
  | nil => []
  | leaf _ next => next.labels
  | node a inside next => a :: (inside.labels ++ next.labels)

theorem length_labels (f : Forest α τ) : f.labels.length = f.nodeCount := by
  induction f with
  | nil => rfl
  | leaf t next ih => simpa [labels, nodeCount] using ih
  | node a inside next ihi ihn => simp [labels, nodeCount, ihi, ihn]; omega

def height : Forest α τ → Nat
  | nil => 0
  | leaf _ next => next.height
  | node _ inside next => max (1 + inside.height) next.height

end Forest

end SchemaLang
