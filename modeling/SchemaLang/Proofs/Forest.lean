import SchemaLang.Syntax.Forest

/-!
# Nodes of a forest and where they stand

`Each` says something of every node of a row and of the row it holds. `At`
says where a node stands: which leaves come before it and which come after
it. Between the two stand the leaves that the node holds. `mapLeaves` keeps
all nodes and changes leaf by leaf.
-/

set_option autoImplicit false

namespace SchemaLang.Forest

variable {α σ τ : Type}

def Each (P : α → Forest α τ → Prop) : Forest α τ → Prop
  | nil => True
  | leaf _ next => next.Each P
  | node a inside next => P a inside ∧ inside.Each P ∧ next.Each P

@[simp] theorem each_nil (P : α → Forest α τ → Prop) : (nil : Forest α τ).Each P := trivial

@[simp] theorem each_leaf (P : α → Forest α τ → Prop) (t : τ) (next : Forest α τ) :
    (leaf t next).Each P ↔ next.Each P := Iff.rfl

@[simp] theorem each_node (P : α → Forest α τ → Prop) (a : α) (inside next : Forest α τ) :
    (node a inside next).Each P ↔ P a inside ∧ inside.Each P ∧ next.Each P := Iff.rfl

@[simp] theorem each_append (P : α → Forest α τ → Prop) (f g : Forest α τ) :
    (f ++ g).Each P ↔ f.Each P ∧ g.Each P := by
  induction f with
  | nil => simp
  | leaf t next ih => simp [ih]
  | node a inside next _ ih => simp [ih, and_assoc]

@[simp] theorem each_ofTokens (P : α → Forest α τ → Prop) (ts : List τ) :
    (ofTokens ts : Forest α τ).Each P := by
  induction ts with
  | nil => trivial
  | cons t ts ih => exact ih

instance decidableEach {P : α → Forest α τ → Prop} [∀ a i, Decidable (P a i)] :
    (f : Forest α τ) → Decidable (f.Each P)
  | nil => .isTrue trivial
  | leaf _ next => decidableEach next
  | node a inside next =>
    have := decidableEach (P := P) inside
    have := decidableEach (P := P) next
    inferInstanceAs (Decidable (P a inside ∧ inside.Each P ∧ next.Each P))

theorem Each.imp {P Q : α → Forest α τ → Prop} (h : ∀ a i, P a i → Q a i) {f : Forest α τ}
    (hf : f.Each P) : f.Each Q := by
  induction f with
  | nil => trivial
  | leaf t next ih => exact ih hf
  | node a inside next ihi ihn => exact ⟨h _ _ hf.1, ihi hf.2.1, ihn hf.2.2⟩

@[simp] theorem labels_append (f g : Forest α τ) : (f ++ g).labels = f.labels ++ g.labels := by
  induction f with
  | nil => rfl
  | leaf t next ih => exact ih
  | node a inside next _ ih => simp [labels, ih]

@[simp] theorem labels_ofTokens (ts : List τ) : (ofTokens ts : Forest α τ).labels = [] := by
  induction ts with
  | nil => rfl
  | cons t ts ih => exact ih

theorem each_iff_labels {P : α → Prop} {f : Forest α τ} :
    f.Each (fun a _ => P a) ↔ ∀ a ∈ f.labels, P a := by
  induction f with
  | nil => simp [labels]
  | leaf t next ih => exact ih
  | node a inside next ihi ihn => simp [labels, ihi, ihn, or_imp, forall_and]

/-- `At f before a inside after`: the node labelled `a` that holds `inside`
stands in `f` behind the leaves `before` and in front of the leaves `after`. -/
inductive At : Forest α τ → List τ → α → Forest α τ → List τ → Prop where
  | here (a : α) (inside next : Forest α τ) : At (node a inside next) [] a inside next.leaves
  | behindLeaf {next inside : Forest α τ} {before after : List τ} {a : α} (t : τ)
      (h : At next before a inside after) : At (leaf t next) (t :: before) a inside after
  | within {held inside : Forest α τ} {before after : List τ} {a : α} (b : α)
      (next : Forest α τ) (h : At held before a inside after) :
      At (node b held next) before a inside (after ++ next.leaves)
  | behindNode {next inside : Forest α τ} {before after : List τ} {a : α} (b : α)
      (held : Forest α τ) (h : At next before a inside after) :
      At (node b held next) (held.leaves ++ before) a inside after

theorem At.leaves_eq {f inside : Forest α τ} {before after : List τ} {a : α}
    (h : At f before a inside after) : f.leaves = before ++ inside.leaves ++ after := by
  induction h with
  | here a inside next => rfl
  | behindLeaf t _ ih => simp [leaves, ih]
  | within b next _ ih => simp [leaves, ih]
  | behindNode b held _ ih => simp [leaves, ih]

/-- A node of two rows side by side stands in one of them. -/
theorem At.of_append {f g inside : Forest α τ} {before after : List τ} {a : α}
    (h : (f ++ g).At before a inside after) :
    (∃ after', f.At before a inside after' ∧ after = after' ++ g.leaves) ∨
      ∃ before', g.At before' a inside after ∧ before = f.leaves ++ before' := by
  induction f generalizing before after with
  | nil => exact .inr ⟨before, h, rfl⟩
  | leaf t next ih =>
    cases h with
    | behindLeaf _ h =>
      rcases ih h with ⟨after', h', rfl⟩ | ⟨before', h', rfl⟩
      · exact .inl ⟨after', .behindLeaf t h', rfl⟩
      · exact .inr ⟨before', h', rfl⟩
  | node label held next _ ih =>
    cases h with
    | here => exact .inl ⟨next.leaves, .here a inside next, leaves_append _ _⟩
    | within _ _ h =>
      refine .inl ⟨_, .within label next h, ?_⟩
      rw [List.append_assoc, ← leaves_append]
      rfl
    | behindNode _ _ h =>
      rcases ih h with ⟨after', h', rfl⟩ | ⟨before', h', rfl⟩
      · exact .inl ⟨after', .behindNode label held h', rfl⟩
      · exact .inr ⟨before', h', by rw [leaves, List.append_assoc]⟩

theorem not_at_ofTokens {ls before after : List τ} {a : α} {inside : Forest α τ} :
    ¬ (ofTokens ls).At before a inside after := by
  intro h
  induction ls generalizing before with
  | nil => cases h
  | cons l ls ih =>
    cases h with
    | behindLeaf _ h => exact ih h

theorem Each.at {P : α → Forest α τ → Prop} {f inside : Forest α τ} {before after : List τ}
    {a : α} (hf : f.Each P) (h : At f before a inside after) : P a inside := by
  induction h with
  | here a inside next => exact hf.1
  | behindLeaf t _ ih => exact ih hf
  | within b next _ ih => exact ih hf.2.1
  | behindNode b held _ ih => exact ih hf.2.2

theorem Each.and {P Q : α → Forest α τ → Prop} {f : Forest α τ} (hp : f.Each P) (hq : f.Each Q) :
    f.Each (fun a i => P a i ∧ Q a i) := by
  induction f with
  | nil => trivial
  | leaf t next ih => exact ih hp hq
  | node a inside next ihi ihn =>
    exact ⟨⟨hp.1, hq.1⟩, ihi hp.2.1 hq.2.1, ihn hp.2.2 hq.2.2⟩

def tops : Forest α τ → List α
  | nil => []
  | leaf _ next => next.tops
  | node a _ next => a :: next.tops

@[simp] theorem nodeCount_append (f g : Forest α τ) :
    (f ++ g).nodeCount = f.nodeCount + g.nodeCount := by
  simp [← length_labels]

/-! ## The leaves of a row -/

def tokens : Forest α τ → List τ
  | nil => []
  | leaf t next => t :: next.tokens
  | node _ _ next => next.tokens

@[simp] theorem tokens_append (f g : Forest α τ) : (f ++ g).tokens = f.tokens ++ g.tokens := by
  induction f with
  | nil => rfl
  | leaf t next ih => simp [tokens, ih]
  | node a inside next _ ih => exact ih

@[simp] theorem tokens_ofTokens (ts : List τ) : (ofTokens ts : Forest α τ).tokens = ts := by
  induction ts with
  | nil => rfl
  | cons t ts ih => simp [ofTokens, tokens, ih]

def mapLeaves (f : σ → τ) : Forest α σ → Forest α τ
  | nil => nil
  | leaf t next => leaf (f t) (next.mapLeaves f)
  | node a inside next => node a (inside.mapLeaves f) (next.mapLeaves f)

@[simp] theorem leaves_mapLeaves (f : σ → τ) (row : Forest α σ) :
    (row.mapLeaves f).leaves = row.leaves.map f := by
  induction row with
  | nil => rfl
  | leaf t next ih => simp [mapLeaves, leaves, ih]
  | node a inside next ihi ihn => simp [mapLeaves, leaves, ihi, ihn]

theorem mapLeaves_append (f : σ → τ) (g h : Forest α σ) :
    (g ++ h).mapLeaves f = g.mapLeaves f ++ h.mapLeaves f := by
  induction g with
  | nil => rfl
  | leaf t next ih => rw [leaf_append, mapLeaves, ih, mapLeaves, leaf_append]
  | node a inside next _ ih => rw [node_append, mapLeaves, ih, mapLeaves, node_append]

theorem mapLeaves_mapLeaves {ρ : Type} (f : σ → τ) (g : ρ → σ) (row : Forest α ρ) :
    (row.mapLeaves g).mapLeaves f = row.mapLeaves (f ∘ g) := by
  induction row with
  | nil => rfl
  | leaf t next ih => simp [mapLeaves, ih]
  | node a inside next ihi ihn => simp [mapLeaves, ihi, ihn]

theorem mapLeaves_ofTokens (f : σ → τ) (ts : List σ) :
    (ofTokens ts : Forest α σ).mapLeaves f = ofTokens (ts.map f) := by
  induction ts with
  | nil => rfl
  | cons t ts ih => rw [ofTokens, mapLeaves, ih, List.map_cons, ofTokens]

@[simp] theorem nodeCount_mapLeaves (f : σ → τ) (row : Forest α σ) :
    (row.mapLeaves f).nodeCount = row.nodeCount := by
  induction row with
  | nil => rfl
  | leaf t next ih => exact ih
  | node a inside next ihi ihn => simp only [mapLeaves, nodeCount, ihi, ihn]

theorem each_mapLeaves {P : α → Forest α τ → Prop} {f : σ → τ} {row : Forest α σ} :
    (row.mapLeaves f).Each P ↔ row.Each (fun a i => P a (i.mapLeaves f)) := by
  induction row with
  | nil => exact Iff.rfl
  | leaf t next ih => exact ih
  | node a inside next ihi ihn => simp only [mapLeaves, each_node, ihi, ihn]

/-- Any leaves that map to those of a row make up such a row. -/
theorem exists_mapLeaves_eq (f : σ → τ) (row : Forest α τ) (ts : List σ)
    (h : ts.map f = row.leaves) : ∃ r : Forest α σ, r.mapLeaves f = row ∧ r.leaves = ts := by
  induction row generalizing ts with
  | nil =>
    obtain rfl := List.map_eq_nil_iff.mp h
    exact ⟨nil, rfl, rfl⟩
  | leaf t next ih =>
    obtain ⟨u, us, rfl, rfl, hus⟩ := List.map_eq_cons_iff.mp h
    obtain ⟨r, rfl, rfl⟩ := ih us hus
    exact ⟨leaf u r, rfl, rfl⟩
  | node a inside next ihi ihn =>
    obtain ⟨us, vs, rfl, hus, hvs⟩ := List.map_eq_append_iff.mp h
    obtain ⟨r, rfl, rfl⟩ := ihi us hus
    obtain ⟨r', rfl, rfl⟩ := ihn vs hvs
    exact ⟨node a r r', rfl, rfl⟩

theorem exists_of_mapLeaves_eq_leaf {f : σ → τ} {r : Forest α σ} {t : τ} {next : Forest α τ}
    (h : r.mapLeaves f = leaf t next) :
    ∃ u r', r = leaf u r' ∧ f u = t ∧ r'.mapLeaves f = next := by
  cases r with
  | nil => cases h
  | node => cases h
  | leaf u r' =>
    obtain ⟨ht, hnext⟩ := Forest.leaf.inj h
    exact ⟨u, r', rfl, ht, hnext⟩

theorem exists_of_mapLeaves_eq_node {f : σ → τ} {r : Forest α σ} {a : α}
    {inside next : Forest α τ} (h : r.mapLeaves f = node a inside next) :
    ∃ i r', r = node a i r' ∧ i.mapLeaves f = inside ∧ r'.mapLeaves f = next := by
  cases r with
  | nil => cases h
  | leaf => cases h
  | node b i r' =>
    obtain ⟨rfl, hinside, hnext⟩ := Forest.node.inj h
    exact ⟨i, r', rfl, hinside, hnext⟩

theorem exists_of_mapLeaves_eq_append {f : σ → τ} {r : Forest α σ} {g h : Forest α τ}
    (hr : r.mapLeaves f = g ++ h) :
    ∃ r₁ r₂, r = r₁ ++ r₂ ∧ r₁.mapLeaves f = g ∧ r₂.mapLeaves f = h := by
  induction g generalizing r with
  | nil => exact ⟨nil, r, rfl, rfl, hr⟩
  | leaf t next ih =>
    obtain ⟨u, rest, rfl, rfl, hrest⟩ := exists_of_mapLeaves_eq_leaf hr
    obtain ⟨r₁, r₂, rfl, rfl, rfl⟩ := ih hrest
    exact ⟨leaf u r₁, r₂, rfl, rfl, rfl⟩
  | node a inside next _ ih =>
    obtain ⟨held, rest, rfl, rfl, hrest⟩ := exists_of_mapLeaves_eq_node hr
    obtain ⟨r₁, r₂, rfl, rfl, rfl⟩ := ih hrest
    exact ⟨node a held r₁, r₂, rfl, rfl, rfl⟩

end SchemaLang.Forest
