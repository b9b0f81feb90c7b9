import CartoStyle.Error
import Mathlib

/-!
Boundaries between characters. A byte offset at a boundary cuts the text in two, and it is these
offsets that have positions.
-/

namespace CartoStyle

variable {source : String} {offset : Nat}

/-- No character of the text has bytes on both sides of the offset. -/
def IsBoundary (source : String) (offset : Nat) : Prop := String.Pos.Raw.IsValid source ⟨offset⟩

/-- A boundary cuts the text in two. -/
theorem isBoundary_iff : IsBoundary source offset ↔
    ∃ before after, source.toList = before ++ after ∧ byteLength before = offset := by
  rw [IsBoundary, String.Pos.Raw.isValid_iff_exists_append]
  constructor
  · rintro ⟨first, second, rfl, hoffset⟩
    refine ⟨first.toList, second.toList, String.toList_append, ?_⟩
    rw [byteLength_toList]
    exact (congrArg String.Pos.Raw.byteIdx hoffset).symm
  · rintro ⟨before, after, hsplit, rfl⟩
    refine ⟨String.ofList before, String.ofList after, ?_, ?_⟩
    · rw [← String.toList_inj, String.toList_append, String.toList_ofList, String.toList_ofList,
        hsplit]
    · rw [String.Pos.Raw.ext_iff, String.byteIdx_rawEndPos, ← byteLength_toList,
        String.toList_ofList]

/-- The boundary between two parts of a text has the position at the end of the first. -/
theorem ofOffset_byteLength {before after : List Char} (h : source.toList = before ++ after) :
    Position.ofOffset source (byteLength before) = .ok (Position.after before) := by
  rw [Position.ofOffset, Position.at?_byteLength h]

theorem IsBoundary.exists_ofOffset_eq (h : IsBoundary source offset) :
    ∃ place, Position.ofOffset source offset = .ok place := by
  obtain ⟨before, after, hsplit, rfl⟩ := isBoundary_iff.mp h
  exact ⟨_, ofOffset_byteLength hsplit⟩

/-- Of two starts of a text the shorter one is a start of the longer one. -/
theorem exists_append_of_byteLength_lt {xs ys xs' ys' : List Char} (h : xs ++ ys = xs' ++ ys')
    (hlt : byteLength xs < byteLength xs') : ∃ between, xs' = xs ++ between ∧ between ≠ [] := by
  rcases List.append_eq_append_iff.mp h with ⟨between, rfl, -⟩ | ⟨between, rfl, -⟩
  · refine ⟨between, rfl, ?_⟩
    rintro rfl
    rw [List.append_nil] at hlt
    exact Nat.lt_irrefl _ hlt
  · rw [byteLength_append] at hlt
    omega

end CartoStyle
