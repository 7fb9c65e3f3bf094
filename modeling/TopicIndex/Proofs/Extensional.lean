import TopicIndex.Proofs.Sound

/-! # An index is given by its values

Ordered pruned forests with the same values at every path are equal (`Forest.Agrees.eq`): something is
stored under every segment, so the segments are the same, and they come in the same order. Hence a
sound index is given by its dialect, its guard and the lists under its topics
(`Index.Sound.eq_of_valuesAt`), whatever changes led to it. -/

namespace TopicIndex

universe u

variable {α : Type u}

namespace Forest

/-- The same values at every path. -/
def Agrees (f g : Forest α) : Prop := ∀ s p, (f.child s).valuesAt p = (g.child s).valuesAt p

theorem child_eq_empty {f : Forest α} {s : String} (h : s ∉ f.segments) : f.child s = .empty := by
  rw [child, child?_eq_none h]; rfl

theorem exists_child?_of_mem {f : Forest α} {s : String} (h : s ∈ f.segments) :
    ∃ n, f.child? s = some n := by
  induction f with
  | nil => cases h
  | cons t vs below rest _ ih =>
    rw [child?_cons]
    split
    · exact ⟨_, rfl⟩
    · next hts =>
      refine ih ?_
      rcases List.mem_cons.mp h with rfl | h
      · exact absurd rfl hts
      · exact h

namespace Agrees

variable {f g below below' rest rest' : Forest α} {s t : String} {vs ws : List α}

theorem symm (h : f.Agrees g) : g.Agrees f := fun s p => (h s p).symm

/-- Under every segment of a pruned forest something is stored. -/
theorem mem_segments (h : f.Agrees g) (hf : f.Pruned) (hs : s ∈ f.segments) : s ∈ g.segments := by
  obtain ⟨n, hn⟩ := exists_child?_of_mem hs
  obtain ⟨hne, hpr⟩ := hf.of_child? hn
  obtain ⟨p, hp⟩ := Node.exists_valuesAt_ne_nil hpr hne
  by_contra hg
  have hfp : (f.child s).valuesAt p = n.valuesAt p := by rw [child, hn]; rfl
  rw [← hfp, h s p, child_eq_empty hg, Node.valuesAt_empty] at hp
  exact hp rfl

theorem head_eq (h : (cons s vs below rest).Agrees (cons t ws below' rest'))
    (hf : (cons s vs below rest).Pruned) (hg : (cons t ws below' rest').Pruned)
    (hs : ∀ x ∈ rest.segments, s < x) (ht : ∀ x ∈ rest'.segments, t < x) : s = t := by
  have hsg : s = t ∨ s ∈ rest'.segments := List.mem_cons.mp (h.mem_segments hf List.mem_cons_self)
  have htf : t = s ∨ t ∈ rest.segments := List.mem_cons.mp (h.symm.mem_segments hg List.mem_cons_self)
  rcases hsg with hst | hst
  · exact hst
  · rcases htf with hts | hts
    · exact hts.symm
    · exact absurd (hs t hts) (String.lt_asymm (ht s hst))

theorem eq (h : f.Agrees g) (hf : f.Ordered) (hfp : f.Pruned) (hg : g.Ordered) (hgp : g.Pruned) :
    f = g := by
  induction hf generalizing g with
  | nil =>
    cases g with
    | nil => rfl
    | cons t ws below' rest' =>
      exact absurd (h.symm.mem_segments hgp (s := t) List.mem_cons_self) List.not_mem_nil
  | @cons s vs below rest hs hb hr ihb ihr =>
    cases g with
    | nil => exact absurd (h.mem_segments hfp (s := s) List.mem_cons_self) List.not_mem_nil
    | cons t ws below' rest' =>
      cases hg with
      | cons ht hb' hr' =>
      cases hfp with
      | cons hne hbp hrp =>
      cases hgp with
      | cons hne' hbp' hrp' =>
      obtain rfl : s = t := h.head_eq (.cons hne hbp hrp) (.cons hne' hbp' hrp') hs ht
      have hnode : ∀ p, (⟨vs, below⟩ : Node α).valuesAt p = (⟨ws, below'⟩ : Node α).valuesAt p := by
        intro p
        have hp := h s p
        rwa [child_cons_self, child_cons_self] at hp
      have hbelow : below.Agrees below' := by
        intro x p
        have hxp := hnode (x :: p)
        rwa [Node.valuesAt_cons, Node.valuesAt_cons] at hxp
      have hrest : rest.Agrees rest' := by
        intro x p
        by_cases hx : s = x
        · subst hx
          rw [child_eq_empty fun hm => String.lt_irrefl _ (hs _ hm),
            child_eq_empty fun hm => String.lt_irrefl _ (ht _ hm)]
        · have hxp := h x p
          rwa [child_cons_of_ne hx, child_cons_of_ne hx] at hxp
      rw [show vs = ws from hnode [], ihb hbelow hbp hb' hbp', ihr hrest hrp hr' hrp']

end Agrees

end Forest

theorem Node.eq_of_valuesAt {n m : Node α} (hn : n.children.Ordered) (hnp : n.children.Pruned)
    (hm : m.children.Ordered) (hmp : m.children.Pruned) (h : ∀ p, n.valuesAt p = m.valuesAt p) :
    n = m := by
  have hchildren : n.children.Agrees m.children := by
    intro s p
    have hsp := h (s :: p)
    rwa [valuesAt_cons, valuesAt_cons] at hsp
  obtain ⟨vs, f⟩ := n
  obtain ⟨ws, g⟩ := m
  obtain rfl : vs = ws := h []
  rw [show f = g from hchildren.eq hn hnp hm hmp]

namespace Index.Sound

variable {t s : Index α}

theorem eq_of_valuesAt (ht : t.Sound) (hs : s.Sound) (hd : t.dialect = s.dialect)
    (hg : t.guard = s.guard) (h : ∀ u, t.valuesAt u = s.valuesAt u) : t = s := by
  have hpath : ∀ u, t.path u = s.path u := fun u => by rw [path, path, hd]
  have hroot : t.root = s.root := by
    refine Node.eq_of_valuesAt ht.ordered ht.pruned hs.ordered hs.pruned fun p => ?_
    by_cases hp : ∃ u, p = t.path u
    · obtain ⟨u, rfl⟩ := hp
      have hu := h u
      rwa [valuesAt, valuesAt, ← hpath u] at hu
    · rw [ht.stray p fun u hu => hp ⟨u, hu⟩, hs.stray p fun u hu => hp ⟨u, hu.trans (hpath u).symm⟩]
  obtain ⟨d, g, n⟩ := t
  obtain ⟨d', g', n'⟩ := s
  simp only at hd hg hroot
  rw [hd, hg, hroot]

end Index.Sound

end TopicIndex
