import TopicIndex.Proofs.Extensional
import TopicIndex.Proofs.Preorder
import TopicIndex.Proofs.Rearranged

/-! # What an outline tells

A row tells how many values a node holds, not which: the outline of an index is that of its tally
(`Index.Sound.display_tally`), and sound indices have the same tally exactly when the same topics hold as
many values (`Index.Sound.tally_eq_iff`).

Conversely the tally can be read off the text, as long as no segment breaks a line. A line gives the depth
by its indent and the number by its last digits, and what is left between the marks is the segment, whatever
is in it (`Row.line_inj`). Rows give the forest: what is below a node goes on to the next row that is not
deeper (`Forest.rows_append_inj`). -/

namespace TopicIndex

universe u v

variable {α : Type u} {β : Type v}

/-! ### Other values -/

/-- The same nodes with other values. -/
def Forest.map (f : α → β) : Forest α → Forest β
  | nil => nil
  | cons s vs below rest => cons s (vs.map f) (map f below) (map f rest)

def Node.map (f : α → β) (n : Node α) : Node β where
  values := n.values.map f
  children := n.children.map f

namespace Forest

variable {f : Forest α} {g : α → β}

@[simp] theorem segments_map (g : α → β) (f : Forest α) : (f.map g).segments = f.segments := by
  induction f with
  | nil => rfl
  | cons s vs below rest _ ih => rw [map, segments, segments, ih]

theorem paths_map (g : α → β) (f : Forest α) : (f.map g).paths = f.paths := by
  induction f with
  | nil => rfl
  | cons s vs below rest ihb ihr => rw [map, paths_cons, paths_cons, ihb, ihr]

theorem child?_map (g : α → β) (f : Forest α) (segment : String) :
    (f.map g).child? segment = (f.child? segment).map (Node.map g) := by
  induction f with
  | nil => rfl
  | cons s vs below rest _ ih =>
    rw [map, child?_cons, child?_cons, ih]
    split <;> rfl

theorem Ordered.map (hf : f.Ordered) (g : α → β) : (f.map g).Ordered := by
  induction hf with
  | nil => exact .nil
  | cons hlt _ _ ihb ihr => exact .cons (by simpa using hlt) ihb ihr

end Forest

namespace Node

theorem eq_empty_of_map {n : Node α} {g : α → β} (h : n.map g = empty) : n = empty := by
  obtain ⟨vs, f⟩ := n
  cases vs <;> cases f <;> simp_all [map, Forest.map, empty]

theorem valuesAt_map (g : α → β) (n : Node α) (p : List String) :
    (n.map g).valuesAt p = (n.valuesAt p).map g := by
  induction p generalizing n with
  | nil => rfl
  | cons s p ih =>
    have hchild : (n.map g).child s = (n.child s).map g := by
      rw [child, child, Forest.child, Forest.child, map, Forest.child?_map]
      cases n.children.child? s <;> rfl
    rw [valuesAt_cons, valuesAt_cons, hchild, ih]

end Node

theorem Forest.Pruned.map {f : Forest α} (hf : f.Pruned) (g : α → β) : (f.map g).Pruned := by
  induction hf with
  | nil => exact .nil
  | cons hne _ _ ihb ihr => exact .cons (fun h => hne (Node.eq_empty_of_map h)) ihb ihr

/-! ### Tallies -/

/-- How many values stand where. -/
def Index.tally (t : Index α) : Index Unit where
  dialect := t.dialect
  guard := .strict
  root := t.root.map fun _ => ()

theorem Index.display_eq_lines (t : Index α) :
    t.display = "TopicTree:" ++ String.join ((t.outline.map (·.line)).map ("\n" ++ ·)) := by
  rw [display, List.map_map]; rfl

namespace Index.Sound

variable {t : Index α} {s : Index β}

theorem tally (ht : t.Sound) : t.tally.Sound where
  ordered := ht.ordered.map _
  pruned := ht.pruned.map _
  stray p hp := by
    show (t.root.map _).valuesAt p = []
    rw [Node.valuesAt_map, ht.stray p hp, List.map_nil]

theorem tally_eq_iff (ht : t.Sound) (hs : s.Sound) (hd : t.dialect = s.dialect) :
    t.tally = s.tally ↔ ∀ u, (t.valuesAt u).length = (s.valuesAt u).length := by
  have htally : ∀ u, t.tally.valuesAt u = s.tally.valuesAt u ↔
      (t.valuesAt u).length = (s.valuesAt u).length := by
    intro u
    show (t.root.map _).valuesAt _ = (s.root.map _).valuesAt _ ↔ _
    rw [Node.valuesAt_map, Node.valuesAt_map, List.map_const', List.map_const', List.replicate_inj]
    exact and_iff_left (.inr rfl)
  constructor
  · intro h u
    exact (htally u).mp (by rw [h])
  · intro h
    exact ht.tally.eq_of_valuesAt hs.tally hd rfl fun u => (htally u).mpr (h u)

theorem outline_eq (ht : t.Sound) : t.outline = t.root.children.paths.map t.root.row :=
  Node.outline_children ht.ordered

theorem lines_tally (ht : t.Sound) : t.tally.outline.map (·.line) = t.outline.map (·.line) := by
  have hpaths : t.tally.root.children.paths = t.root.children.paths := Forest.paths_map _ _
  rw [ht.outline_eq, ht.tally.outline_eq, hpaths, List.map_map, List.map_map]
  refine List.map_congr_left fun p _ => ?_
  have hvalues : t.tally.root.valuesAt p = (t.root.valuesAt p).map fun _ => () := Node.valuesAt_map _ _ p
  simp [Node.row, Row.line, hvalues]

theorem display_tally (ht : t.Sound) : t.tally.display = t.display := by
  rw [display_eq_lines, ht.lines_tally, ← display_eq_lines]

end Index.Sound

/-! ### Lines -/

/-- Two texts agree up to the first character that does not satisfy `P`, and from there on. -/
theorem append_cons_inj {P : α → Bool} {p p' r r' : List α} {c c' : α} (hp : ∀ x ∈ p, P x = true)
    (hp' : ∀ x ∈ p', P x = true) (hc : P c = false) (hc' : P c' = false)
    (h : p ++ c :: r = p' ++ c' :: r') : p = p' ∧ r = r' := by
  have hfront : ∀ {p r : List α} {c : α}, (∀ x ∈ p, P x = true) → P c = false →
      (p ++ c :: r).takeWhile P = p ∧ (p ++ c :: r).dropWhile P = c :: r := by
    intro p r c hp hc
    rw [List.takeWhile_append_of_pos hp, List.dropWhile_append_of_pos hp,
      List.takeWhile_cons_of_neg (by simp [hc]), List.dropWhile_cons_of_neg (by simp [hc]), List.append_nil]
    exact ⟨rfl, rfl⟩
  have htake := congrArg (List.takeWhile P) h
  have hdrop := congrArg (List.dropWhile P) h
  rw [(hfront hp hc).1, (hfront hp' hc').1] at htake
  rw [(hfront hp hc).2, (hfront hp' hc').2] at hdrop
  exact ⟨htake, (List.cons.inj hdrop).2⟩

theorem toList_pushn (c : Char) (n : Nat) : ("".pushn c n).toList = List.replicate n c := by
  unfold String.pushn
  induction n with
  | zero => rfl
  | succ n ih => rw [Nat.repeat, String.toList_push, ih, List.replicate_succ']

namespace Row

theorem toList_line (r : Row α) : r.line.toList = '|' :: ' ' :: (List.replicate (2 * r.depth) ' ' ++
    '\'' :: (r.segment.toList ++ '\'' :: ' ' :: '=' :: '>' :: ' ' :: Nat.toDigits 10 r.values.length)) := by
  simp [line, toList_pushn]

theorem not_mem_line {r : Row α} (h : '\n' ∉ r.segment.toList) : '\n' ∉ r.line.toList := by
  have hdigits : '\n' ∉ Nat.toDigits 10 r.values.length := fun hd =>
    absurd (Nat.isDigit_of_mem_toDigits (by decide) (by decide) hd) (by decide)
  rw [toList_line]
  simp [h, hdigits]

theorem line_inj {r : Row α} {r' : Row β} (h : r.line = r'.line) :
    r.depth = r'.depth ∧ r.segment = r'.segment ∧ r.values.length = r'.values.length := by
  have htext := congrArg String.toList h
  rw [toList_line, toList_line] at htext
  -- the indent ends at the first character that is no blank
  obtain ⟨hindent, hrest⟩ := append_cons_inj (P := (· == ' ')) (by simp) (by simp) (by decide) (by decide)
    (List.cons.inj (List.cons.inj htext).2).2
  have hdepth := congrArg List.length hindent
  rw [List.length_replicate, List.length_replicate] at hdepth
  -- the number begins behind the last character that is no digit
  have hdigit : ∀ n, ∀ c ∈ (Nat.toDigits 10 n).reverse, c.isDigit = true := fun n c hc =>
    Nat.isDigit_of_mem_toDigits (by decide) (by decide) (List.mem_reverse.mp hc)
  have hback := congrArg List.reverse hrest
  simp only [List.reverse_append, List.reverse_cons, List.append_assoc, List.cons_append, List.nil_append]
    at hback
  obtain ⟨hnumber, hfront⟩ := append_cons_inj (P := Char.isDigit) (hdigit _) (hdigit _) (by decide) (by decide)
    hback
  have hlength := congrArg (Nat.ofDigitChars 10 · 0) (List.reverse_inj.mp hnumber)
  simp only [Nat.ofDigitChars_ten_toDigits] at hlength
  simp only [List.cons.injEq, List.reverse_inj, true_and] at hfront
  exact ⟨by omega, String.toList_inj.mp hfront, hlength⟩

/-- Rows of a tally are known by their lines. -/
theorem line_injective : Function.Injective (line : Row Unit → String) := by
  intro r r' h
  obtain ⟨hdepth, hsegment, hlength⟩ := line_inj h
  obtain ⟨k, s, vs⟩ := r
  obtain ⟨k', s', ws⟩ := r'
  simp only at hdepth hsegment hlength
  rw [hdepth, hsegment, List.ext_getElem hlength fun _ _ _ => rfl]

end Row

/-! ### Rows -/

namespace Forest

variable {f g : Forest α} {k : Nat} {rs rs' : List (Row α)}

theorem depth_lt_of_head (hrs : ∀ r ∈ rs.head?, r.depth < k) (f : Forest α) :
    ∀ r ∈ (f.rows k ++ rs).head?, r.depth < k + 1 := by
  cases f with
  | nil => exact fun r hr => Nat.lt_succ_of_lt (hrs r hr)
  | cons s vs below rest =>
    rintro r hr
    obtain rfl := Option.some.inj hr
    exact Nat.lt_succ_self k

/-- Rows at one depth and deeper give the forest, if the row that follows is not as deep. -/
theorem rows_append_inj (hrs : ∀ r ∈ rs.head?, r.depth < k) (hrs' : ∀ r ∈ rs'.head?, r.depth < k)
    (h : f.rows k ++ rs = g.rows k ++ rs') : f = g ∧ rs = rs' := by
  induction f generalizing g k rs rs' with
  | nil =>
    cases g with
    | nil => exact ⟨rfl, h⟩
    | cons t ws below' rest' =>
      have hhead : rs.head? = some ⟨k, t, ws⟩ := congrArg List.head? h
      exact absurd (hrs _ hhead) (Nat.lt_irrefl k)
  | cons s vs below rest ihb ihr =>
    cases g with
    | nil =>
      have hhead : rs'.head? = some ⟨k, s, vs⟩ := (congrArg List.head? h).symm
      exact absurd (hrs' _ hhead) (Nat.lt_irrefl k)
    | cons t ws below' rest' =>
      rw [rows, rows, List.cons_append, List.cons_append, List.append_assoc, List.append_assoc] at h
      obtain ⟨hrow, htail⟩ := List.cons.inj h
      obtain ⟨rfl, hrest⟩ := ihb (depth_lt_of_head hrs rest) (depth_lt_of_head hrs' rest') htail
      obtain ⟨rfl, rfl⟩ := ihr hrs hrs' hrest
      cases hrow
      exact ⟨rfl, rfl⟩

end Forest

namespace Index

/-- The title and the rows are the lines of the text. -/
theorem toList_display (t : Index α) : t.display.toList =
    ['\n'].intercalate ("TopicTree:".toList :: t.outline.map (·.line.toList)) := by
  simp [display, String.toList_join, Dialect.intercalate_cons, List.flatMap_map]

/-- No segment of a node holds a line break. -/
def Unbroken (t : Index α) : Prop := ∀ p, (t.node? p).isSome = true → ∀ s ∈ p, '\n' ∉ s.toList

namespace Sound

variable {t : Index α} {s : Index β}

theorem not_mem_line (ht : t.Sound) (hb : t.Unbroken) {r : Row α} (hr : r ∈ t.outline) :
    '\n' ∉ r.line.toList := by
  rw [ht.outline_eq] at hr
  obtain ⟨p, hp, rfl⟩ := List.mem_map.mp hr
  obtain ⟨hne, hsome⟩ := (Node.mem_paths ht.ordered).mp hp
  refine Row.not_mem_line (hb p hsome _ ?_)
  rw [Node.row, List.getLastD_eq_getLast?, List.getLast?_eq_some_getLast hne, Option.getD_some]
  exact List.getLast_mem hne

theorem splitOn_display (ht : t.Sound) (hb : t.Unbroken) : t.display.toList.splitOn '\n' =
    "TopicTree:".toList :: t.outline.map (·.line.toList) := by
  rw [toList_display, List.splitOn_intercalate _ _ (by simp)]
  intro l hl
  rcases List.mem_cons.mp hl with rfl | hl
  · decide
  · obtain ⟨r, hr, rfl⟩ := List.mem_map.mp hl
    exact ht.not_mem_line hb hr

/-- The lines of the text give the tally. -/
theorem tally_eq_of_display (ht : t.Sound) (hs : s.Sound) (hd : t.dialect = s.dialect) (htb : t.Unbroken)
    (hsb : s.Unbroken) (h : t.display = s.display) : t.tally = s.tally := by
  have hlines : t.outline.map (·.line) = s.outline.map (·.line) := by
    have hsplit := congrArg (·.toList.splitOn '\n') h
    simp only [ht.splitOn_display htb, hs.splitOn_display hsb] at hsplit
    refine List.map_injective_iff.mpr (fun _ _ => String.toList_inj.mp) ?_
    simpa only [List.map_map, Function.comp_def] using (List.cons.inj hsplit).2
  have houtline : t.tally.outline = s.tally.outline := by
    refine List.map_injective_iff.mpr Row.line_injective ?_
    rw [ht.lines_tally, hs.lines_tally, hlines]
  have hchildren : t.tally.root.children = s.tally.root.children := by
    rw [outline, outline, Forest.outline, Forest.outline, ht.tally.ordered.sorted, hs.tally.ordered.sorted]
      at houtline
    exact (Forest.rows_append_inj (by simp) (by simp) (congrArg (· ++ []) houtline)).1
  have hroot : t.tally.root = s.tally.root := by
    show (⟨t.tally.root.values, t.tally.root.children⟩ : Node Unit) =
      ⟨s.tally.root.values, s.tally.root.children⟩
    rw [hchildren, ht.tally.values_root, hs.tally.values_root]
  show (⟨t.dialect, .strict, t.tally.root⟩ : Index Unit) = ⟨s.dialect, .strict, s.tally.root⟩
  rw [hd, hroot]

end Sound

theorem Rearranged.unbroken_iff {t s : Index α} (h : t.Rearranged s) : t.Unbroken ↔ s.Unbroken :=
  forall_congr' fun p => by rw [h.isSome_node?]

/-- Indices of one dialect with as many values under every topic look the same, whatever changes led to them
and in whatever order siblings are kept. If no segment breaks a line, those that look the same have as many
values under every topic. One row for every node shows the last segment of its path and the number of its
values, in the order of the paths. -/
theorem display_canonical [BEq α] [BEq β] (d : Dialect) (g g' : Guard) (cs : List (Change α))
    (cs' : List (Change β)) {t : Index α} {s : Index β} (ht : ((empty d g).run cs).Rearranged t)
    (hs : ((empty d g').run cs').Rearranged s) :
    ((∀ u, (t.valuesAt u).length = (s.valuesAt u).length) → t.display = s.display) ∧
    (t.Unbroken → s.Unbroken → t.display = s.display →
      ∀ u, (t.valuesAt u).length = (s.valuesAt u).length) ∧
    ∃ paths : List (List String), paths.Nodup ∧ paths.Pairwise Before ∧
      (∀ p, p ∈ paths ↔ p ≠ [] ∧ (t.node? p).isSome = true) ∧
      t.display = "TopicTree:" ++ String.join (paths.map fun p =>
        "\n| " ++ "".pushn ' ' (2 * (p.length - 1)) ++ "'" ++ p.getLastD "" ++ "' => " ++
          toString (t.root.valuesAt p).length) := by
  have hrun := sound_run d g cs
  have hrun' := sound_run d g' cs'
  have hd : ((empty d g).run cs).dialect = ((empty d g').run cs').dialect := by
    rw [dialect_run, dialect_run]; rfl
  have htally := hrun.tally_eq_iff hrun' hd
  simp only [ht.valuesAt, hs.valuesAt, ht.display, hs.display]
  refine ⟨fun h => ?_, fun htb hsb h => ?_, ?_⟩
  · rw [← hrun.display_tally, htally.mpr h, hrun'.display_tally]
  · exact htally.mp (hrun.tally_eq_of_display hrun' hd (ht.unbroken_iff.mpr htb)
      (hs.unbroken_iff.mpr hsb) h)
  · refine ⟨_, Forest.nodup_paths hrun.ordered, Forest.pairwise_paths hrun.ordered, fun p => ?_, ?_⟩
    · rw [ht.isSome_node?]
      exact Node.mem_paths hrun.ordered
    · have hbar : "\n| " = "\n" ++ "| " := rfl
      rw [display, hrun.outline_eq, List.map_map]
      simp only [Function.comp_def, Node.row, Row.line, ht.root.valuesAt, hbar, String.append_assoc]

theorem display_canonical_pair :
    let t : Index Nat := ⟨.mqtt, .strict, ⟨[], .ofTrees [("b", ⟨[2], .nil⟩), ("a", ⟨[1], .nil⟩)]⟩⟩
    let s := (empty .mqtt .lenient : Index Bool).run
      [.insert "b" true, .insert "c" true, .assign "a" false, .vacate "c"]
    t.Unbroken ∧ s.Unbroken ∧ s.display = "TopicTree:\n| 'a' => 1\n| 'b' => 1" ∧
      t.display = s.display ∧ (∀ u, (t.valuesAt u).length = (s.valuesAt u).length) ∧
      ∃ paths : List (List String), paths.Nodup ∧ paths.Pairwise Before ∧
        ∀ p, p ∈ paths ↔ p ≠ [] ∧ (t.node? p).isSome = true := by
  intro t s
  have ht : ((empty .mqtt .strict : Index Nat).run [.insert "a" 1, .insert "b" 2]).Rearranged t :=
    ⟨rfl, rfl, rfl, .swap [1] [2] .nil .nil .nil (by decide)⟩
  have hs : s.Rearranged s := ⟨rfl, rfl, rfl, .refl _⟩
  have hunbroken : ∀ {γ : Type} [BEq γ] (g : Guard) (cs : List (Change γ)),
      (∀ p ∈ ((empty .mqtt g).run cs).root.children.paths, ∀ s ∈ p, '\n' ∉ s.toList) →
      ((empty .mqtt g).run cs).Unbroken := fun g cs h p hp s hs =>
    h p ((Node.mem_paths (sound_run _ g cs).ordered).mpr ⟨List.ne_nil_of_mem hs, hp⟩) s hs
  have hsb : s.Unbroken := hunbroken _ _ (by decide)
  have htb : t.Unbroken := ht.unbroken_iff.mp (hunbroken _ _ (by decide))
  have hlength : ∀ u, (t.valuesAt u).length = (s.valuesAt u).length := by
    have hsound : s.Sound := sound_run _ _ _
    simp only [ht.valuesAt]
    exact ((sound_run .mqtt .strict [.insert "a" 1, .insert "b" 2]).tally_eq_iff hsound rfl).mp rfl
  obtain ⟨hsame, hback, paths, hnodup, hpairwise, hmem, -⟩ := display_canonical .mqtt .strict .lenient _ _ ht hs
  exact ⟨htb, hsb, by decide, hsame hlength, hback htb hsb (hsame hlength), paths, hnodup, hpairwise, hmem⟩

end Index

end TopicIndex
