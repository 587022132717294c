import Mathlib.Data.Set.List
import Lanewise.Vec.Text

/-!
# Vectors from literals

Literals are read one after the other. If all of them are lanes, these are the lanes of the
vector, in order (`Vec.readLanes_of_map`); the first literal that is refused ends the reading and
gives the reason, whatever follows it (`Vec.readLanes_of_firstRefusal`).

`Vec.ofLiterals_all_or_nothing` : literals that are too few or too many are refused without being
read, any others are refused for the reason of the first one that is no lane, and if there is none
the vector has exactly the lanes that were written.
-/

namespace Lanewise

namespace Vec

variable {s : Shape} {literals : List String}

/-! ## Lanes -/

theorem readLanes_of_map {x : List (BitVec s.laneBits)}
    (h : literals.map s.readLane = x.map .ok) (index : ℕ) :
    readLanes s index literals = .ok x := by
  induction x generalizing literals index with
  | nil =>
    obtain rfl : literals = [] := by simpa using h
    rfl
  | cons y ys ih =>
    obtain ⟨literal, rest, rfl, hliteral, hrest⟩ := List.map_eq_cons_iff.1 h
    simp only [readLanes, hliteral, ih hrest]
    rfl

/-- If every literal is a lane, there is a list of these lanes. -/
theorem exists_map_readLane (h : ∀ literal ∈ literals, ∃ x, s.readLane literal = .ok x) :
    ∃ x : List (BitVec s.laneBits), literals.map s.readLane = x.map .ok := by
  have hrange : literals.map s.readLane ∈ Set.range (List.map Except.ok) := by
    rw [Set.range_list_map]
    intro y hy
    obtain ⟨literal, hmem, rfl⟩ := List.mem_map.1 hy
    obtain ⟨x, hx⟩ := h literal hmem
    exact ⟨x, hx.symm⟩
  obtain ⟨x, hx⟩ := hrange
  exact ⟨x, hx.symm⟩

theorem lane_ofWords {x : List (BitVec s.laneBits)} (hlen : x.length = s.lanes) {k : ℕ}
    (h : k < x.length) : (ofWords s.laneBytes x).lane s k = x[k] :=
  lane_ofLanes s ⟨x.toArray, hlen⟩ k (hlen ▸ h)

/-! ## The first refusal -/

/-- The reason why the first literal that is no lane is none. -/
def FirstRefusal (s : Shape) (literals : List String) (reason : LiteralError) : Prop :=
  ∃ before literal after, literals = before ++ literal :: after ∧
    (∀ earlier ∈ before, ∃ x, s.readLane earlier = .ok x) ∧ s.readLane literal = .error reason

theorem exists_firstRefusal
    (h : ∃ literal ∈ literals, ∃ reason, s.readLane literal = .error reason) :
    ∃ reason, FirstRefusal s literals reason := by
  induction literals with
  | nil => simp at h
  | cons literal rest ih =>
    cases hliteral : s.readLane literal with
    | error reason => exact ⟨reason, [], literal, rest, rfl, nofun, hliteral⟩
    | ok x =>
      have hrest : ∃ literal ∈ rest, ∃ reason, s.readLane literal = .error reason := by
        simpa [hliteral] using h
      obtain ⟨reason, before, refused, after, rfl, hbefore, hrefused⟩ := ih hrest
      refine ⟨reason, literal :: before, refused, after, rfl, ?_, hrefused⟩
      exact List.forall_mem_cons.2 ⟨⟨x, hliteral⟩, hbefore⟩

theorem readLanes_of_firstRefusal {reason : LiteralError} (h : FirstRefusal s literals reason)
    (index : ℕ) : ∃ k, readLanes s index literals = .error (.lane k reason) := by
  obtain ⟨before, literal, after, rfl, hbefore, hliteral⟩ := h
  induction before generalizing index with
  | nil => exact ⟨index, by simp only [List.nil_append, readLanes, hliteral]⟩
  | cons earlier rest ih =>
    obtain ⟨⟨x, hx⟩, hrest⟩ := List.forall_mem_cons.1 hbefore
    obtain ⟨k, hk⟩ := ih (index + 1) hrest
    exact ⟨k, by simp only [List.cons_append, readLanes, hx, hk]; rfl⟩

/-! ## Vectors -/

/-- If the literals are not as many as the lanes, nothing else matters. Otherwise the first literal
that is no lane decides the error, and without one the lanes of the vector are the literals. -/
theorem ofLiterals_all_or_nothing (s : Shape) (literals : List String) :
    (literals.length ≠ s.lanes → (ofLiterals s literals).mapError TextError.toError =
      .error ⟨.parse, 8701, "Literal count does not match lane count"⟩) ∧
    (literals.length = s.lanes →
      (∃ literal ∈ literals, ∃ reason, s.readLane literal = .error reason) →
      ∃ reason, FirstRefusal s literals reason ∧
        (ofLiterals s literals).mapError TextError.toError = .error reason.toError) ∧
    (literals.length = s.lanes → (∀ literal ∈ literals, ∃ x, s.readLane literal = .ok x) →
      ∃ v, ofLiterals s literals = .ok v ∧
        ∀ (k : ℕ) (h : k < literals.length), s.readLane literals[k] = .ok (v.lane s k)) := by
  refine ⟨fun hlen => ?_, fun hlen hrefused => ?_, fun hlen hread => ?_⟩
  · rw [ofLiterals, if_neg hlen]
    rfl
  · obtain ⟨reason, hreason⟩ := exists_firstRefusal hrefused
    obtain ⟨k, hk⟩ := readLanes_of_firstRefusal hreason 0
    refine ⟨reason, hreason, ?_⟩
    rw [ofLiterals, if_pos hlen, hk]
    rfl
  · obtain ⟨x, hx⟩ := exists_map_readLane hread
    have hxlen : x.length = literals.length := by simpa using (congrArg List.length hx).symm
    refine ⟨ofWords s.laneBytes x, ?_, fun k h => ?_⟩
    · rw [ofLiterals, if_pos hlen, readLanes_of_map hx 0]
      rfl
    · have hk : k < x.length := hxlen ▸ h
      have hget := congrArg (·[k]?) hx
      rw [lane_ofWords (hxlen.trans hlen) hk]
      simpa [h, hk] using hget

/-- Of two literals that are no lanes, the first gives the reason : a separator at the end. -/
theorem ofLiterals_all_or_nothing_separator :
    (ofLiterals FloatShape.f64x2 ["1_", "1e999"]).mapError TextError.toError =
      .error ⟨.parse, 8702, "misplaced digit separator"⟩ := by
  have hfirst : Shape.readLane FloatShape.f64x2 "1_" = .error .misplacedSeparator := by rfl
  obtain ⟨reason, ⟨before, literal, after, hsplit, hbefore, hliteral⟩, herror⟩ :=
    (ofLiterals_all_or_nothing FloatShape.f64x2 ["1_", "1e999"]).2.1 rfl
      ⟨"1_", List.mem_cons_self, _, hfirst⟩
  rw [herror]
  obtain _ | ⟨earlier, before⟩ := before
  · obtain ⟨rfl, -⟩ := List.cons.inj hsplit
    cases hfirst.symm.trans hliteral
    rfl
  · obtain ⟨rfl, -⟩ := List.cons.inj hsplit
    obtain ⟨x, hx⟩ := hbefore "1_" List.mem_cons_self
    cases hfirst.symm.trans hx

end Vec

end Lanewise
