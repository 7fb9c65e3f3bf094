import Mathlib.Data.String.Basic
import Mathlib.Tactic.SplitIfs
import TopicIndex.Outline
import TopicIndex.Proofs.Entries

/-! # Nodes in the order of their paths

The nodes of an ordered forest are listed in the lexicographic order of their paths
(`Forest.pairwise_paths`): a node before its descendants, siblings by their segments. An outline has one
row for each, in this order (`Node.outline_children`). Segments are compared character by character; their
bytes in UTF-8 give the same order (`bytes_lt`), since of two characters the one with the larger code has
the larger byte where their encodings part. -/

namespace TopicIndex

universe u

variable {α : Type u}

/-! ### Bytes -/

/-- The three last digits to the base 64, and what stands before them. -/
theorem digits_lt {v w : Nat} (h : v < w) : v / 262144 < w / 262144 ∨ v / 262144 = w / 262144 ∧
    (v / 4096 % 64 < w / 4096 % 64 ∨ v / 4096 % 64 = w / 4096 % 64 ∧
      (v / 64 % 64 < w / 64 % 64 ∨ v / 64 % 64 = w / 64 % 64 ∧ v % 64 < w % 64)) := by
  omega

theorem utf8EncodeChar_lt {c d : Char} (h : c < d) (bs bs' : List UInt8) :
    String.utf8EncodeChar c ++ bs < String.utf8EncodeChar d ++ bs' := by
  have hlt : c.val.toNat < d.val.toNat := UInt32.lt_iff_toNat_lt.mp h
  have hd : d.val.toNat < 0x110000 := by
    rcases d.valid with hd | ⟨-, hd⟩
    · exact Nat.lt_trans hd (by decide)
    · exact hd
  have hdigits := digits_lt hlt
  simp only [String.utf8EncodeChar]
  -- encodings of different lengths part at the first byte, those of one length at some digit
  split_ifs <;> first
    | omega
    | simp only [List.cons_append, List.cons_lt_cons_iff, UInt8.lt_iff_toNat_lt, ← UInt8.toNat_inj,
        UInt8.toNat_ofNat']
      simp (disch := omega) only [Nat.mod_eq_of_lt]
      omega

theorem data_toUTF8 (s : String) : s.toUTF8.data.toList = s.toList.flatMap String.utf8EncodeChar := by
  obtain ⟨cs, rfl⟩ : ∃ cs, s = String.ofList cs := ⟨s.toList, String.ofList_toList.symm⟩
  simp [String.toUTF8_eq_toByteArray, List.utf8Encode]

theorem bytes_lt {s t : String} (h : s < t) : s.toUTF8.data.toList < t.toUTF8.data.toList := by
  rw [String.lt_iff] at h
  rw [data_toUTF8, data_toUTF8]
  generalize s.toList = cs, t.toList = ds at h ⊢
  induction h with
  | @nil c cs =>
    rw [List.flatMap_cons]
    cases hc : String.utf8EncodeChar c with
    | nil => exact absurd hc String.utf8EncodeChar_ne_nil
    | cons b bs => exact List.nil_lt_cons _ _
  | rel hlt => exact utf8EncodeChar_lt hlt _ _
  | cons _ ih => exact List.append_left_lt ih

/-! ### Paths -/

/-- The first path is the beginning of the second, or it has the smaller segment, byte by byte, where the
two part. -/
def Before (p q : List String) : Prop :=
  List.Lex (fun s t => s.toUTF8.data.toList < t.toUTF8.data.toList) p q

namespace Forest

variable {f : Forest α}

theorem pairwise_paths (hf : f.Ordered) : f.paths.Pairwise Before := by
  induction hf with
  | nil => exact .nil
  | @cons s vs below rest hlt _ _ ihb ihr =>
    have hrest : ∀ q, ∀ p ∈ rest.paths, Before (s :: q) p := by
      intro q p hp
      obtain ⟨t, p, rfl, ht⟩ := exists_head_of_mem_paths hp
      exact .rel (bytes_lt (hlt t ht))
    rw [paths_cons, List.pairwise_cons, List.pairwise_append]
    refine ⟨fun p hp => ?_, ?_, ihr, fun p hp => ?_⟩
    · rcases List.mem_append.mp hp with hp | hp
      · obtain ⟨q, hq, rfl⟩ := List.mem_map.mp hp
        obtain ⟨t, q, rfl, -⟩ := exists_head_of_mem_paths hq
        exact .cons .nil
      · exact hrest [] p hp
    · exact ihb.map _ fun _ _ h => .cons h
    · obtain ⟨q, -, rfl⟩ := List.mem_map.mp hp
      exact hrest q

theorem Ordered.sorted (hf : f.Ordered) : f.sorted = f := by
  induction hf with
  | nil => rfl
  | @cons s vs below rest hlt _ _ ihb ihr =>
    rw [Forest.sorted, ihb, ihr]
    cases rest with
    | nil => rfl
    | cons t ws below' rest' =>
      rw [enqueue, if_neg (String.lt_asymm (hlt t List.mem_cons_self))]

/-- The depth of a row is the length of the path, its segment the last one. -/
theorem rows_eq_map_entries (k : Nat) (f : Forest α) :
    f.rows k = f.entries.map fun e => ⟨k + e.1.length - 1, e.1.getLastD "", e.2⟩ := by
  induction f generalizing k with
  | nil => rfl
  | cons s vs below rest ihb ihr =>
    have hbelow : below.rows (k + 1) = (below.entries.map fun e => (s :: e.1, e.2)).map
        fun e => ⟨k + e.1.length - 1, e.1.getLastD "", e.2⟩ := by
      rw [ihb, List.map_map]
      refine List.map_congr_left fun e he => ?_
      have hmem : e.1 ∈ below.paths := List.mem_map_of_mem he
      obtain ⟨t, q, hq, -⟩ := exists_head_of_mem_paths hmem
      rw [Function.comp_apply, hq]
      simp only [List.getLastD_cons, List.length_cons, Row.mk.injEq, and_true]
      omega
    rw [rows, entries, List.map_cons, List.map_append, hbelow, ihr]
    rfl

end Forest

/-- What an outline shows of the node at a path. -/
def Node.row (n : Node α) (p : List String) : Row α where
  depth := p.length - 1
  segment := p.getLastD ""
  values := n.valuesAt p

theorem Node.outline_children {n : Node α} (hn : n.children.Ordered) :
    n.children.outline = n.children.paths.map n.row := by
  rw [Forest.outline, hn.sorted, Forest.rows_eq_map_entries, Forest.paths, List.map_map]
  refine List.map_congr_left fun e he => ?_
  rw [Function.comp_apply, row, valuesAt_of_mem_entries hn he, Nat.zero_add]

end TopicIndex
