import LayerCheck.Proofs.Digraph.Loops

/-!
# Subdivided graphs

A graph is subdivided if each of its nodes becomes a chain of parts: edges lead to the first part,
which stands for the node, and leave from the last.  The parts behind the first one have a single
edge into them.  A path of the subdivided graph is a path of the other with the chains filled in, so
what is said along paths is the same in both.

* `Subdivision`: when a graph is a subdivision of another.
* `Subdivision.reaches_iff`, `Subdivision.dominates_iff`: a part is reached, and dominated by a
  node, as what it is a part of.
* `Subdivision.backEdge_iff`, `Subdivision.inLoop_iff`: loops are subdivided and nothing else.
* `Subdivision.acyclic_iff`: the forward edges close cycles in both or in none.
-/

namespace LayerCheck

variable {α : Type} {V : α → Prop} {E E' : α → α → Prop} {Part : α → α → Prop} {last : α → α}
  {a b c e h p s t u v x y : α} {π ρ : List α}

/-- An edge into a part that stands for no node. -/
def Inner (V : α → Prop) (E' : α → α → Prop) (u v : α) : Prop := E' u v ∧ ¬ V v

/-- The nodes `V` of `E` have parts, of which the last is `last`, and `E'` leads through them. -/
structure Subdivision (V : α → Prop) (E E' : α → α → Prop) (Part : α → α → Prop) (last : α → α) :
    Prop where
  closed : ∀ {a t}, E a t → V a ∧ V t
  self : ∀ {a}, V a → Part a a
  whole : ∀ {a x}, Part a x → V a
  eq_of_mem : ∀ {a x}, V x → Part a x → a = x
  unique : ∀ {a b x}, Part a x → Part b x → a = b
  part_last : ∀ {a}, V a → Part a (last a)
  edge : ∀ {u v}, E' u v → ∃ a, Part a u ∧ (V v ∧ u = last a ∧ E a v ∨ ¬ V v ∧ Part a v)
  exit : ∀ {a t}, E a t → E' (last a) t
  enter : ∀ {a x}, Part a x → Relation.ReflTransGen (Inner V E') a x
  leave : ∀ {a x}, Part a x → Relation.ReflTransGen (Inner V E') x (last a)
  once : ∀ {u w p}, E' u p → E' w p → ¬ V p → u = w

namespace Subdivision

variable (hs : Subdivision V E E' Part last)
include hs

/-! ## Paths -/

/-- A path through parts is a path through what they are parts of. -/
theorem exists_trail (he : V e) (hx : Part a x) (hπ : Trail E' e (x :: π)) :
    ∃ ρ, Trail E e (a :: ρ) ∧ ∀ b ∈ a :: ρ, b ∈ x :: π := by
  generalize hσ : x :: π = σ at hπ
  induction hπ generalizing a x π with
  | start =>
    obtain ⟨rfl, rfl⟩ := List.cons.inj hσ
    rw [hs.eq_of_mem he hx]
    exact ⟨[], .start, fun b hb => hb⟩
  | @step u v τ hτ huv ih =>
    obtain ⟨rfl, rfl⟩ := List.cons.inj hσ
    obtain ⟨c, hc, ⟨hv, -, hcv⟩ | ⟨-, hv⟩⟩ := hs.edge huv
    · obtain ⟨ρ, hρ, hall⟩ := ih hc rfl
      rw [hs.eq_of_mem hv hx]
      refine ⟨c :: ρ, hρ.step hcv, fun b hb => ?_⟩
      rcases List.mem_cons.mp hb with rfl | hb
      · exact List.mem_cons_self
      · exact List.mem_cons_of_mem _ (hall b hb)
    · obtain ⟨ρ, hρ, hall⟩ := ih hc rfl
      rw [hs.unique hx hv]
      exact ⟨ρ, hρ, fun b hb => List.mem_cons_of_mem _ (hall b hb)⟩

omit hs in
/-- Going on through parts meets no further node. -/
theorem exists_trail_inner (hπ : Trail E' e (u :: π))
    (h : Relation.ReflTransGen (Inner V E') u v) :
    ∃ ρ, Trail E' e (v :: ρ) ∧ ∀ b ∈ v :: ρ, V b → b ∈ u :: π := by
  obtain ⟨ρ, hρ, hall⟩ := hπ.extend h
  exact ⟨ρ, hρ, fun b hb hv => (hall b hb).resolve_right fun hn => hn hv⟩

/-- A path is a path through parts. -/
theorem exists_trail_parts (hx : Part a x) (hρ : Trail E e (a :: ρ)) :
    ∃ π, Trail E' e (x :: π) ∧ ∀ b ∈ x :: π, V b → b ∈ a :: ρ := by
  have hself : ∃ π, Trail E' e (a :: π) ∧ ∀ b ∈ a :: π, V b → b ∈ a :: ρ := by
    clear hx
    generalize hσ : a :: ρ = σ at hρ
    induction hρ generalizing a ρ with
    | start =>
      obtain ⟨rfl, rfl⟩ := List.cons.inj hσ
      exact ⟨[], .start, fun b hb _ => hb⟩
    | @step c v τ hτ hcv ih =>
      obtain ⟨rfl, rfl⟩ := List.cons.inj hσ
      obtain ⟨π, hπ, hall⟩ := ih rfl
      obtain ⟨π', hπ', hall'⟩ := exists_trail_inner hπ (hs.leave (hs.self (hs.closed hcv).1))
      refine ⟨last c :: π', hπ'.step (hs.exit hcv), fun b hb hv => ?_⟩
      rcases List.mem_cons.mp hb with rfl | hb
      · exact List.mem_cons_self
      · exact List.mem_cons_of_mem _ (hall b (hall' b hb hv) hv)
  obtain ⟨π, hπ, hall⟩ := hself
  obtain ⟨π', hπ', hall'⟩ := exists_trail_inner hπ (hs.enter hx)
  exact ⟨π', hπ', fun b hb hv => hall b (hall' b hb hv) hv⟩

/-- **A part is reached if what it is a part of is.** -/
theorem reaches_iff (he : V e) (hx : Part a x) :
    Relation.ReflTransGen E' e x ↔ Relation.ReflTransGen E e a := by
  constructor
  · intro hr
    obtain ⟨π, hπ⟩ := Trail.exists_of_reaches hr
    obtain ⟨ρ, hρ, -⟩ := hs.exists_trail he hx hπ
    exact hρ.reaches
  · intro hr
    obtain ⟨ρ, hρ⟩ := Trail.exists_of_reaches hr
    obtain ⟨π, hπ, -⟩ := hs.exists_trail_parts hx hρ
    exact hπ.reaches

/-- **A node dominates a part if it dominates what the part is a part of.** -/
theorem dominates_iff (he : V e) (hb : V b) (hx : Part a x) :
    Dominates E' e b x ↔ Dominates E e b a := by
  constructor
  · intro hd ρ hρ
    obtain ⟨π, hπ, hall⟩ := hs.exists_trail_parts hx hρ
    exact hall b (hd π hπ) hb
  · intro hd π hπ
    obtain ⟨ρ, hρ, hall⟩ := hs.exists_trail he hx hπ
    exact hall b (hd ρ hρ)

/-- A part that stands for no node does not dominate what leads to it. -/
theorem not_dominates_inner (he : V e) (hu : Relation.ReflTransGen E' e u)
    (hup : Inner V E' u p) : ¬ Dominates E' e p u := by
  intro hd
  obtain ⟨π, hπ⟩ := Trail.exists_of_reaches hu
  obtain ⟨ρ, -, hn, hρ⟩ := hπ.exists_nodup
  obtain ⟨τ, hsuf, hτ⟩ := hρ.exists_suffix (hd ρ hρ)
  -- before the part comes the one node that leads to it, and the path ends there
  cases hτ with
  | start => exact hup.2 he
  | @step w _ τ hτ hwp =>
    obtain rfl := hs.once hup.1 hwp hup.2
    have hmem : u ∈ ρ := by
      obtain ⟨σ, hσ⟩ := hsuf
      cases σ with
      | nil =>
        obtain ⟨-, h⟩ := List.cons.inj hσ
        exact h ▸ List.mem_cons_self
      | cons z σ =>
        obtain ⟨-, h⟩ := List.cons.inj hσ
        rw [← h]
        simp
    exact (List.nodup_cons.mp hn).1 hmem

/-! ## Back edges and loops -/

/-- **The back edges leave from the last parts of those of the other graph.** -/
theorem backEdge_iff (he : V e) :
    BackEdge E' e s h ↔ ∃ b, s = last b ∧ BackEdge E e b h := by
  constructor
  · intro hb
    obtain ⟨hr, hsh, hd⟩ := hb
    obtain ⟨b, hb, ⟨hv, rfl, hbh⟩ | ⟨hv, -⟩⟩ := hs.edge hsh
    · exact ⟨b, rfl, (hs.reaches_iff he hb).mp hr, hbh, (hs.dominates_iff he hv hb).mp hd⟩
    · exact absurd hd (hs.not_dominates_inner he hr ⟨hsh, hv⟩)
  · intro hx
    obtain ⟨b, rfl, hr, hbh, hd⟩ := hx
    have hb := hs.part_last (hs.closed hbh).1
    exact ⟨(hs.reaches_iff he hb).mpr hr, hs.exit hbh,
      (hs.dominates_iff he (hs.closed hbh).2 hb).mpr hd⟩

omit hs in
/-- Going on through parts touches no further node. -/
theorem around_inner (hh : V h) (hx : x ≠ h) (hxy : Relation.ReflTransGen (Inner V E') x y) :
    Around E' h x y ∧ y ≠ h := by
  induction hxy with
  | refl => exact ⟨.refl, hx⟩
  | @tail y z _ hyz ih =>
    have hz : z ≠ h := fun he => hyz.2 (he ▸ hh)
    exact ⟨ih.1.tail ⟨hyz.1, ih.2, hz⟩, hz⟩

/-- A path around a node is one around it through parts. -/
theorem around_parts (hh : V h) (hx : Part a x) (ha : a ≠ h) (hr : Around E h a b) :
    Around E' h x (last b) := by
  have hne : ∀ {a x}, Part a x → a ≠ h → x ≠ h :=
    fun hx ha e => ha (hs.eq_of_mem (e ▸ hh) hx |>.trans e)
  induction hr using Relation.ReflTransGen.head_induction_on generalizing x with
  | refl => exact (around_inner hh (hne hx ha) (hs.leave hx)).1
  | head hat _ ih =>
    obtain ⟨hxl, hl⟩ := around_inner hh (hne hx ha) (hs.leave hx)
    have ht := (hs.closed hat.1).2
    exact (hxl.tail ⟨hs.exit hat.1, hl, hat.2.2⟩).trans (ih (hs.self ht) hat.2.2)

/-- **A part is in the loop of a back edge if what it is a part of is.** -/
theorem inLoop_iff (hb : BackEdge E e b h) (hx : Part a x) :
    InLoop E' h (last b) x ↔ InLoop E h b a := by
  obtain ⟨hr, hbh, hd⟩ := hb
  obtain ⟨hbv, hh⟩ := hs.closed hbh
  constructor
  · intro hl
    rcases hl with rfl | hl
    · exact .inl (hs.eq_of_mem hh hx)
    · induction hl using Relation.ReflTransGen.head_induction_on generalizing a with
      | refl =>
        rw [hs.unique hx (hs.part_last hbv)]
        exact .inr .refl
      | head hxy _ ih =>
        obtain ⟨c, hc, ⟨hy, -, hcy⟩ | ⟨-, hy⟩⟩ := hs.edge hxy.1
        · obtain rfl := hs.unique hc hx
          by_cases hah : c = h
          · exact .inl hah
          · have hyb := (ih (hs.self hy)).resolve_left hxy.2.2
            exact .inr (.head ⟨hcy, hah, hxy.2.2⟩ hyb)
        · obtain rfl := hs.unique hc hx
          exact ih hy
  · intro hl
    by_cases hah : a = h
    · subst hah
      by_cases hxa : x = a
      · exact .inl hxa
      obtain ⟨hxl, hl⟩ := around_inner hh hxa (hs.leave hx)
      by_cases hba : b = a
      · rw [hba]
        exact .inr hxl
      · -- the header dominates the source, so a path leads on from it to the source
        obtain ⟨π, hπ⟩ := Trail.exists_of_reaches hr
        obtain ⟨ρ, -, hn, hρ⟩ := hπ.exists_nodup
        have hmem := (List.mem_cons.mp (hd ρ hρ)).resolve_left (Ne.symm hba)
        obtain ⟨t, hat, hta, htb⟩ := hρ.exists_around hn hmem
        have ht := hs.self (hs.closed hat).2
        exact .inr ((hxl.tail ⟨hs.exit hat, hl, hta⟩).trans (hs.around_parts hh ht hta htb))
    · exact .inr (hs.around_parts hh hx hah (hl.resolve_left hah))

/-! ## Cycles of forward edges -/

/-- No reachable part lies on a cycle that passes through no node. -/
theorem not_inner_cycle (he : V e) (hπ : Trail E' e (x :: π)) :
    ¬ Relation.TransGen (Inner V E') x x := by
  generalize hσ : x :: π = σ at hπ
  induction hπ generalizing x π with
  | start =>
    obtain ⟨rfl, rfl⟩ := List.cons.inj hσ
    intro hc
    obtain ⟨y, -, hyx⟩ := Relation.TransGen.tail'_iff.mp hc
    exact hyx.2 he
  | step hτ hwx ih =>
    obtain ⟨rfl, rfl⟩ := List.cons.inj hσ
    intro hc
    obtain ⟨y, hxy, hyx⟩ := Relation.TransGen.tail'_iff.mp hc
    rw [hs.once hwx hyx.1 hyx.2] at ih
    exact ih rfl (.head' hyx hxy)

/-- A path of forward edges between parts is one between nodes, or stays inside of a node. -/
theorem transGen_forward (he : V e) (hx : Part a x)
    (hr : Relation.TransGen (Forward E' e) x y) :
    ∃ c, Part c y ∧ (Relation.TransGen (Forward E e) a c ∨
      a = c ∧ Relation.TransGen (Inner V E') x y) := by
  have hstep : ∀ {a u v}, Part a u → Forward E' e u v →
      ∃ c, Part c v ∧ (Forward E e a c ∨ a = c ∧ Inner V E' u v) := by
    intro a u v hu huv
    obtain ⟨hreach, hedge, hd⟩ := huv
    obtain ⟨c, hc, ⟨hv, -, hcv⟩ | ⟨hv, hcv⟩⟩ := hs.edge hedge
    · obtain rfl := hs.unique hc hu
      refine ⟨v, hs.self hv, .inl ⟨(hs.reaches_iff he hu).mp hreach, hcv, fun hdom => hd ?_⟩⟩
      exact (hs.dominates_iff he hv hu).mpr hdom
    · obtain rfl := hs.unique hc hu
      exact ⟨c, hcv, .inr ⟨rfl, hedge, hv⟩⟩
  induction hr with
  | single hxy =>
    obtain ⟨c, hc, hf | ⟨rfl, hi⟩⟩ := hstep hx hxy
    · exact ⟨c, hc, .inl (.single hf)⟩
    · exact ⟨a, hc, .inr ⟨rfl, .single hi⟩⟩
  | tail _ hyz ih =>
    obtain ⟨c, hc, hac⟩ := ih
    obtain ⟨d, hd, hf | ⟨rfl, hi⟩⟩ := hstep hc hyz
    · rcases hac with hac | ⟨rfl, -⟩
      · exact ⟨d, hd, .inl (hac.tail hf)⟩
      · exact ⟨d, hd, .inl (.single hf)⟩
    · exact ⟨c, hd, hac.imp id fun hac => ⟨hac.1, hac.2.tail hi⟩⟩

/-- A forward edge leads forward through the parts. -/
theorem transGen_forward_parts (he : V e) (hf : Forward E e a t) :
    Relation.TransGen (Forward E' e) a t := by
  obtain ⟨hr, hat, hd⟩ := hf
  obtain ⟨ha, ht⟩ := hs.closed hat
  have hreach := (hs.reaches_iff he (hs.self ha)).mpr hr
  have hinner : Relation.ReflTransGen (Forward E' e) a (last a) := by
    have hparts := hs.leave (hs.self ha)
    generalize last a = z at hparts
    induction hparts with
    | refl => exact .refl
    | tail hay hyz ih =>
      have hy := hreach.trans (Relation.ReflTransGen.mono (fun _ _ h => h.1) _ _ hay)
      exact ih.tail ⟨hy, hyz.1, hs.not_dominates_inner he hy hyz⟩
  have hlast := hs.part_last ha
  refine .tail' hinner ⟨(hs.reaches_iff he hlast).mpr hr, hs.exit hat, fun hdom => hd ?_⟩
  exact (hs.dominates_iff he ht hlast).mp hdom

/-- **The forward edges close a cycle in both graphs or in none.** -/
theorem acyclic_iff (he : V e) :
    (∀ x, ¬ Relation.TransGen (Forward E' e) x x) ↔
      ∀ a, ¬ Relation.TransGen (Forward E e) a a := by
  constructor
  · intro hacyclic a ha
    refine hacyclic a ?_
    exact Relation.TransGen.lift' id (fun _ _ hf => hs.transGen_forward_parts he hf) _ _ ha
  · intro hacyclic x hx
    obtain ⟨y, hxy, -⟩ := Relation.TransGen.head'_iff.mp hx
    obtain ⟨a, ha, -⟩ := hs.edge hxy.2.1
    obtain ⟨c, hc, hac | ⟨-, hi⟩⟩ := hs.transGen_forward he ha hx
    · exact hacyclic a (hs.unique hc ha ▸ hac)
    · obtain ⟨π, hπ⟩ := Trail.exists_of_reaches hxy.1
      exact hs.not_inner_cycle he hπ hi

end Subdivision

end LayerCheck
