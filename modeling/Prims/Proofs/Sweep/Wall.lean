import Mathlib.Data.List.Nodup

/-!
# Sweep — Wall

Walls of two triangles over every edge between every pair of joined layers, read in coordinates: a
vertex is a layer and an index in it.  Where the layers and the edges are both `Simple`, that is, joined
into lines and rings that do not turn back, no directed side is used twice (`gridSides_nodup`), and the
reverse of a side is missing only on a layer that is joined on one side, or over an index at which one
edge ends (`gridSides_open_iff`).
-/

namespace Prims

section

variable {α β : Type}

/-- Edges of which one at most starts at each vertex, one at most ends there, and none runs both ways. -/
structure Simple (es : List (β × β)) : Prop where
  next : ∀ a b c, (a, b) ∈ es → (a, c) ∈ es → b = c
  prev : ∀ a b c, (b, a) ∈ es → (c, a) ∈ es → b = c
  one_way : ∀ a b, (a, b) ∈ es → (b, a) ∉ es

/-- The sides of the two triangles over an edge between two layers. -/
def wallSides (lower upper : α) (e : β × β) : List ((α × β) × (α × β)) :=
  [((lower, e.1), (lower, e.2)), ((lower, e.2), (upper, e.2)), ((upper, e.2), (lower, e.1)),
    ((lower, e.1), (upper, e.2)), ((upper, e.2), (upper, e.1)), ((upper, e.1), (lower, e.1))]

/-- The sides of the walls over edges between joined layers. -/
def gridSides (ls : List (α × α)) (es : List (β × β)) : List ((α × β) × (α × β)) :=
  ls.flatMap fun l => es.flatMap (wallSides l.1 l.2)

variable {es : List (β × β)} {ls : List (α × α)} {l u l' u' : α} {e e' : β × β}
  {p : (α × β) × (α × β)}

theorem Simple.ne (h : Simple es) (he : e ∈ es) : e.1 ≠ e.2 := by
  obtain ⟨a, b⟩ := e
  rintro (rfl : a = b)
  exact h.one_way a a he he

theorem wallSides_nodup (h : Simple es) (he : e ∈ es) (hl : l ≠ u) : (wallSides l u e).Nodup := by
  have hne := h.ne he
  simp only [wallSides, List.nodup_cons, List.mem_cons, List.not_mem_nil, or_false, Prod.mk.injEq]
  grind

/-- A side of a segment is over one edge. -/
theorem edge_of_wallSides (h : Simple es) (hl : l ≠ u) (he : e ∈ es) (he' : e' ∈ es)
    (hp : p ∈ wallSides l u e) (hp' : p ∈ wallSides l u e') : e = e' := by
  obtain ⟨a, b⟩ := e
  obtain ⟨a', b'⟩ := e'
  have h₁ := h.next a b b' he
  have h₂ := h.prev b a a' he
  have h₃ := h.one_way a b he
  have h₄ := h.one_way a' b' he'
  simp only [wallSides, List.mem_cons, List.not_mem_nil, or_false] at hp hp'
  rcases hp with rfl | rfl | rfl | rfl | rfl | rfl <;>
    simp only [Prod.mk.injEq] at hp' <;> grind

/-- Segments share no side, unless they join the same two layers. -/
theorem disjoint_wallSides (h : Simple es) (h₁ : l ≠ l') (h₂ : u ≠ u')
    (h₃ : ¬(l = u' ∧ u = l')) (he : e ∈ es) (he' : e' ∈ es) (hp : p ∈ wallSides l u e) :
    p ∉ wallSides l' u' e' := by
  intro hp'
  obtain ⟨a, b⟩ := e
  obtain ⟨a', b'⟩ := e'
  have h₄ := h.one_way a b he
  simp only [wallSides, List.mem_cons, List.not_mem_nil, or_false] at hp hp'
  rcases hp with rfl | rfl | rfl | rfl | rfl | rfl <;>
    simp only [Prod.mk.injEq] at hp' <;> grind

theorem mem_gridSides : p ∈ gridSides ls es ↔ ∃ l ∈ ls, ∃ e ∈ es, p ∈ wallSides l.1 l.2 e := by
  simp only [gridSides, List.mem_flatMap]

/-- **No side of a grid is used twice.** -/
theorem gridSides_nodup (hls : ls.Nodup) (hl : Simple ls) (hes : es.Nodup) (he : Simple es) :
    (gridSides ls es).Nodup := by
  refine List.nodup_flatMap.mpr ⟨fun l hlm => List.nodup_flatMap.mpr ⟨fun e hem => ?_, ?_⟩, ?_⟩
  · exact wallSides_nodup he hem (hl.ne hlm)
  · refine hes.imp_of_mem fun {e e'} hem hem' hne => List.disjoint_left.mpr fun p hp hp' => ?_
    exact hne (edge_of_wallSides he (hl.ne hlm) hem hem' hp hp')
  · refine hls.imp_of_mem fun {l l'} hlm hlm' hne => List.disjoint_left.mpr fun p hp hp' => ?_
    obtain ⟨e, hem, hp⟩ := List.mem_flatMap.mp hp
    obtain ⟨e', hem', hp'⟩ := List.mem_flatMap.mp hp'
    obtain ⟨x, y⟩ := l
    obtain ⟨x', y'⟩ := l'
    refine disjoint_wallSides he ?_ ?_ ?_ hem hem' hp hp'
    · rintro (rfl : x = x')
      exact hne (by rw [hl.next x y y' hlm hlm'])
    · rintro (rfl : y = y')
      exact hne (by rw [hl.prev y x x' hlm hlm'])
    · rintro ⟨rfl : x = y', rfl : y = x'⟩
      exact hl.one_way x y hlm hlm'

/-- No side of a grid is a loop. -/
theorem ne_gridSides (hl : Simple ls) (he : Simple es) (hp : p ∈ gridSides ls es) : p.1 ≠ p.2 := by
  obtain ⟨l, hlm, e, hem, hp⟩ := mem_gridSides.mp hp
  have h₁ := hl.ne hlm
  have h₂ := he.ne hem
  simp only [wallSides, List.mem_cons, List.not_mem_nil, or_false] at hp
  rcases hp with rfl | rfl | rfl | rfl | rfl | rfl <;> simp only [Ne, Prod.mk.injEq] <;> grind

/-! ### Sides without a reverse -/

/-- The sides along a layer run with the edges below a wall, against them above it. -/
theorem mem_gridSides_level (hl : Simple ls) (he : Simple es) {x : α} {a b : β} :
    ((x, a), (x, b)) ∈ gridSides ls es ↔
      ((∃ y, (x, y) ∈ ls) ∧ (a, b) ∈ es) ∨ ((∃ y, (y, x) ∈ ls) ∧ (b, a) ∈ es) := by
  rw [mem_gridSides]
  constructor
  · rintro ⟨⟨l, u⟩, hlm, ⟨c, d⟩, hem, hp⟩
    have h₁ := hl.ne hlm
    have h₂ := he.ne hem
    simp only [wallSides, List.mem_cons, List.not_mem_nil, or_false, Prod.mk.injEq] at hp
    grind
  · rintro (⟨⟨y, hy⟩, hab⟩ | ⟨⟨y, hy⟩, hab⟩)
    · exact ⟨_, hy, _, hab, by simp [wallSides]⟩
    · exact ⟨_, hy, _, hab, by simp [wallSides]⟩

/-- The sides over an index run up where an edge ends and down where one starts. -/
theorem mem_gridSides_upright (hl : Simple ls) (he : Simple es) {x y : α} {a : β} :
    ((x, a), (y, a)) ∈ gridSides ls es ↔
      ((x, y) ∈ ls ∧ ∃ b, (b, a) ∈ es) ∨ ((y, x) ∈ ls ∧ ∃ b, (a, b) ∈ es) := by
  rw [mem_gridSides]
  constructor
  · rintro ⟨⟨l, u⟩, hlm, ⟨c, d⟩, hem, hp⟩
    have h₁ := hl.ne hlm
    have h₂ := he.ne hem
    simp only [wallSides, List.mem_cons, List.not_mem_nil, or_false, Prod.mk.injEq] at hp
    grind
  · rintro (⟨hxy, b, hb⟩ | ⟨hyx, b, hb⟩)
    · exact ⟨_, hxy, _, hb, by simp [wallSides]⟩
    · exact ⟨_, hyx, _, hb, by simp [wallSides]⟩

theorem mem_starts {x : α} : x ∈ ls.map Prod.fst ↔ ∃ y, (x, y) ∈ ls := by simp

theorem mem_stops {x : α} : x ∈ ls.map Prod.snd ↔ ∃ y, (y, x) ∈ ls := by simp

/-- Which of the sides over an edge have their reverse. -/
theorem swap_mem_gridSides (hl : Simple ls) (he : Simple es) {x y : α} {a b : β} (hxy : (x, y) ∈ ls)
    (hab : (a, b) ∈ es) :
    (((x, b), (x, a)) ∈ gridSides ls es ↔ x ∈ ls.map Prod.snd) ∧
    (((y, a), (y, b)) ∈ gridSides ls es ↔ y ∈ ls.map Prod.fst) ∧
    (((y, b), (x, b)) ∈ gridSides ls es ↔ b ∈ es.map Prod.fst) ∧
    (((x, a), (y, a)) ∈ gridSides ls es ↔ a ∈ es.map Prod.snd) := by
  have h₁ := hl.one_way x y hxy
  have h₂ := he.one_way a b hab
  simp only [mem_gridSides_level hl he, mem_gridSides_upright hl he, mem_starts, mem_stops, hxy, hab,
    h₁, h₂, and_false, false_and, false_or, or_false, and_true, true_and, and_self]

/-- **The sides of a grid without a reverse**: along a layer that no wall ends at or that none starts
from, and over an index that no edge starts from or that none ends at. -/
theorem gridSides_open_iff (hl : Simple ls) (he : Simple es) :
    (p ∈ gridSides ls es ∧ p.swap ∉ gridSides ls es) ↔
      ∃ l ∈ ls, ∃ e ∈ es,
        (l.1 ∉ ls.map Prod.snd ∧ p = ((l.1, e.1), (l.1, e.2))) ∨
        (l.2 ∉ ls.map Prod.fst ∧ p = ((l.2, e.2), (l.2, e.1))) ∨
        (e.2 ∉ es.map Prod.fst ∧ p = ((l.1, e.2), (l.2, e.2))) ∨
        (e.1 ∉ es.map Prod.snd ∧ p = ((l.2, e.1), (l.1, e.1))) := by
  have hmem : ∀ l ∈ ls, ∀ e ∈ es, ∀ q ∈ wallSides l.1 l.2 e, q ∈ gridSides ls es :=
    fun l hl e he q hq => mem_gridSides.mpr ⟨l, hl, e, he, hq⟩
  constructor
  · rintro ⟨hp, hs⟩
    obtain ⟨l, hlm, e, hem, hp⟩ := mem_gridSides.mp hp
    obtain ⟨h₁, h₂, h₃, h₄⟩ := swap_mem_gridSides hl he hlm hem
    refine ⟨l, hlm, e, hem, ?_⟩
    simp only [wallSides, List.mem_cons, List.not_mem_nil, or_false] at hp
    rcases hp with rfl | rfl | rfl | rfl | rfl | rfl
    · exact .inl ⟨mt h₁.mpr hs, rfl⟩
    · exact .inr (.inr (.inl ⟨mt h₃.mpr hs, rfl⟩))
    -- the two sides of the slant are the reverse of each other
    · exact absurd (hmem l hlm e hem ((l.1, e.1), (l.2, e.2)) (by simp [wallSides])) hs
    · exact absurd (hmem l hlm e hem ((l.2, e.2), (l.1, e.1)) (by simp [wallSides])) hs
    · exact .inr (.inl ⟨mt h₂.mpr hs, rfl⟩)
    · exact .inr (.inr (.inr ⟨mt h₄.mpr hs, rfl⟩))
  · rintro ⟨l, hlm, e, hem, h⟩
    obtain ⟨h₁, h₂, h₃, h₄⟩ := swap_mem_gridSides hl he hlm hem
    rcases h with ⟨h, rfl⟩ | ⟨h, rfl⟩ | ⟨h, rfl⟩ | ⟨h, rfl⟩
    · exact ⟨hmem l hlm e hem _ (by simp [wallSides]), mt h₁.mp h⟩
    · exact ⟨hmem l hlm e hem _ (by simp [wallSides]), mt h₂.mp h⟩
    · exact ⟨hmem l hlm e hem _ (by simp [wallSides]), mt h₃.mp h⟩
    · exact ⟨hmem l hlm e hem _ (by simp [wallSides]), mt h₄.mp h⟩

/-- Edges keep their shape under a map that keeps their ends apart. -/
theorem Simple.map (h : Simple es) {γ : Type} {f : β → γ} {s : β → Prop} (hs : ∀ e ∈ es, s e.1 ∧ s e.2)
    (hf : ∀ a b, s a → s b → f a = f b → a = b) : Simple (es.map (Prod.map f f)) := by
  constructor
  · simp only [List.mem_map, Prod.map, Prod.mk.injEq]
    rintro _ _ _ ⟨⟨a, b⟩, hab, rfl, rfl⟩ ⟨⟨a', c⟩, hac, e, rfl⟩
    obtain rfl := hf a' a (hs _ hac).1 (hs _ hab).1 e
    rw [h.next a' b c hab hac]
  · simp only [List.mem_map, Prod.map, Prod.mk.injEq]
    rintro _ _ _ ⟨⟨b, a⟩, hba, rfl, rfl⟩ ⟨⟨c, a'⟩, hca, rfl, e⟩
    obtain rfl := hf a' a (hs _ hca).2 (hs _ hba).2 e
    rw [h.prev a' b c hba hca]
  · simp only [List.mem_map, Prod.map, Prod.mk.injEq]
    rintro _ _ ⟨⟨a, b⟩, hab, rfl, rfl⟩ ⟨⟨b', a'⟩, hba, e, e'⟩
    obtain rfl := hf b' b (hs _ hba).1 (hs _ hab).2 e
    obtain rfl := hf a' a (hs _ hba).2 (hs _ hab).1 e'
    exact h.one_way a' b' hab hba

end

/-! ### Numbered in rows -/

/-- Places that are numbered row by row have different numbers. -/
theorem row_major_inj {n k k' d d' : Nat} (hd : d < n) (hd' : d' < n) (h : n * k + d = n * k' + d') :
    k = k' ∧ d = d' := by
  have hn : 0 < n := Nat.zero_lt_of_lt hd
  have hdiv := congrArg (· / n) h
  have hmod := congrArg (· % n) h
  simp only [Nat.mul_add_div hn, Nat.mul_add_mod, Nat.div_eq_of_lt hd, Nat.div_eq_of_lt hd',
    Nat.mod_eq_of_lt hd, Nat.mod_eq_of_lt hd', Nat.add_zero] at hdiv hmod
  exact ⟨hdiv, hmod⟩

/-- Places that are numbered row by row have numbers below the number of places. -/
theorem row_major_lt {n m k d : Nat} (hk : k < m) (hd : d < n) : n * k + d < n * m := by
  have hle : n * (k + 1) ≤ n * m := Nat.mul_le_mul_left _ hk
  rw [Nat.mul_succ] at hle
  omega

/-! ### Lines and rings of numbers -/

/-- Each of the first `m` numbers below `n` joined to the next, the last one to zero. -/
def links (n m : Nat) : List (Nat × Nat) := (List.range m).map fun k => (k, (k + 1) % n)

section Links

variable {n m a b : Nat}

theorem mem_links : (a, b) ∈ links n m ↔ a < m ∧ b = (a + 1) % n := by
  simp only [links, List.mem_map, List.mem_range, Prod.mk.injEq]
  constructor
  · rintro ⟨k, hk, rfl, rfl⟩
    exact ⟨hk, rfl⟩
  · rintro ⟨ha, rfl⟩
    exact ⟨a, ha, rfl, rfl⟩

theorem succ_mod (h : a < n) : (a + 1) % n = if a + 1 = n then 0 else a + 1 := by
  split
  next h => rw [h, Nat.mod_self]
  next h => exact Nat.mod_eq_of_lt (by omega)

theorem links_lt (hm : m ≤ n) : ∀ l ∈ links n m, l.1 < n ∧ l.2 < n := by
  rintro ⟨a, b⟩ h
  obtain ⟨ha, rfl⟩ := mem_links.mp h
  exact ⟨by omega, Nat.mod_lt _ (by omega)⟩

theorem links_nodup (n m : Nat) : (links n m).Nodup :=
  .of_map Prod.fst (by simpa [links, Function.comp_def] using List.nodup_range)

/-- A line does not turn back, nor does a ring of three or more. -/
theorem links_simple (h : m < n ∨ m = n ∧ 3 ≤ n) : Simple (links n m) := by
  have hstep : ∀ a b, (a, b) ∈ links n m → a < m ∧ b = if a + 1 = n then 0 else a + 1 := by
    intro a b hab
    obtain ⟨ha, rfl⟩ := mem_links.mp hab
    exact ⟨ha, succ_mod (by omega)⟩
  constructor
  · intro a b c hb hc
    rw [(mem_links.mp hb).2, (mem_links.mp hc).2]
  · intro a b c hb hc
    obtain ⟨hb, e⟩ := hstep b a hb
    obtain ⟨hc, e'⟩ := hstep c a hc
    grind
  · intro a b hab hba
    obtain ⟨ha, e⟩ := hstep a b hab
    obtain ⟨hb, e'⟩ := hstep b a hba
    grind

end Links

end Prims
