import Mathlib.Data.List.DropRight
import ScriptAnalysis.Proofs.Token.Cover
import ScriptAnalysis.Text.LineStarts

/-!
# Lines and columns are exact

The position of an offset counts the line feeds before it and the UTF-16 code units behind the last of them
(`foldl_after`), so positions are in the order of the offsets. The table of line starts gives the same
position for every offset, also inside a character and past the end of the text
(`LineStarts.position?_ofChars`): its search never looks outside of it, and its entries are ordered. Only
one line of one text has a number that does not fit in 32 bits (`IsAllLineFeeds`).
-/

namespace ScriptAnalysis.Text

variable {a b cs : List Char} {c : Char} {n k x : Nat}

/-! ### Where an offset is in a text -/

/-- An offset stands between two characters, inside one, or past the end. -/
inductive Offset (cs : List Char) : Nat → Prop where
  | between (a b : List Char) (h : cs = a ++ b) : Offset cs (byteLength a)
  | inside (a : List Char) (c : Char) (b : List Char) (k : Nat) (h : cs = a ++ c :: b) (hpos : 0 < k)
      (hlt : k < c.utf8Size) : Offset cs (byteLength a + k)
  | past (n : Nat) (h : byteLength cs < n) : Offset cs n

theorem offset_cases (cs : List Char) (n : Nat) : Offset cs n := by
  induction cs generalizing n with
  | nil =>
    cases n with
    | zero => exact .between [] [] rfl
    | succ n => exact .past _ (Nat.succ_pos n)
  | cons c cs ih =>
    rcases Nat.lt_or_ge n c.utf8Size with hlt | hle
    · cases n with
      | zero => exact .between [] (c :: cs) rfl
      | succ n =>
        have h : Offset (c :: cs) (byteLength [] + (n + 1)) :=
          .inside [] c cs (n + 1) rfl (Nat.succ_pos n) hlt
        rwa [byteLength_nil, Nat.zero_add] at h
    · obtain ⟨m, rfl⟩ := Nat.exists_eq_add_of_le hle
      cases ih m with
      | between a b h => exact .between (c :: a) b (congrArg _ h)
      | inside a d b k h hpos hlt =>
        rw [← Nat.add_assoc]
        exact .inside (c :: a) d b k (congrArg _ h) hpos hlt
      | past m h => exact .past _ (Nat.add_lt_add_left h _)

/-! ### The order of positions -/

/-- The position is on an earlier line, or on the same line further left. -/
def Position.Before (p q : Position) : Prop := p.line < q.line ∨ p.line = q.line ∧ p.column < q.column

theorem Position.Before.trans {p q r : Position} (h : p.Before q) (h' : q.Before r) : p.Before r := by
  unfold Before at *
  omega

theorem unitLength_pos (c : Char) (cs : List Char) : 0 < unitLength (c :: cs) := by
  rw [unitLength]
  split <;> omega

theorem Position.before_after (p : Position) (c : Char) : p.Before (p.after c) := by
  have hpos := unitLength_pos c []
  unfold Before after
  split <;> dsimp only <;> omega

theorem Position.before_foldl (p : Position) (c : Char) (cs : List Char) :
    p.Before ((c :: cs).foldl Position.after p) := by
  induction cs generalizing p c with
  | nil => exact p.before_after c
  | cons d cs ih => exact (p.before_after c).trans (ih (p.after c) d)

/-! ### Positions by counting -/

/-- The part of a text behind its last line feed. -/
def lastLine (cs : List Char) : List Char := cs.rtakeWhile (· ≠ '\n')

/-- The lines of a text up to its last line feed. -/
def earlierLines (cs : List Char) : List Char := cs.rdropWhile (· ≠ '\n')

theorem earlierLines_append_lastLine (cs : List Char) : earlierLines cs ++ lastLine cs = cs := by
  rw [earlierLines, lastLine, List.rdropWhile, List.rtakeWhile, ← List.reverse_append,
    List.takeWhile_append_dropWhile, List.reverse_reverse]

theorem lastLine_concat (cs : List Char) (c : Char) :
    lastLine (cs ++ [c]) = if c = '\n' then [] else lastLine cs ++ [c] := by
  rw [lastLine, lastLine, List.rtakeWhile_concat]
  by_cases hc : c = '\n' <;> simp [hc]

theorem earlierLines_concat (cs : List Char) (c : Char) :
    earlierLines (cs ++ [c]) = if c = '\n' then cs ++ [c] else earlierLines cs := by
  rw [earlierLines, earlierLines, List.rdropWhile_concat]
  by_cases hc : c = '\n' <;> simp [hc]

/-- The position behind some characters: the line feeds among them, and the code units of their last line. -/
theorem foldl_after (cs : List Char) :
    cs.foldl Position.after .first = ⟨1 + cs.count '\n', unitLength (lastLine cs)⟩ := by
  induction cs using List.reverseRecOn with
  | nil => rfl
  | append_singleton cs c ih =>
    rw [List.foldl_concat, ih, Position.after, lastLine_concat, List.count_append, List.count_singleton]
    by_cases hc : c = '\n'
    · simp [hc, unitLength]
      rfl
    · simp [hc]

namespace LineIndex

theorem position_between (a b : List Char) : (ofChars (a ++ b)).position (byteLength a) =
    Position.inWords ⟨1 + a.count '\n', unitLength (lastLine a)⟩ := by
  rw [position_ofChars_append, foldl_after]

/-- Inside a character the column is zero. -/
theorem position_inside (a b : List Char) (hpos : 0 < k) (hlt : k < c.utf8Size) :
    (ofChars (a ++ c :: b)).position (byteLength a + k) = Position.inWords ⟨1 + a.count '\n', 0⟩ := by
  obtain ⟨m, rfl⟩ : ∃ m, k = m + 1 := ⟨_, (Nat.succ_pred (by omega)).symm⟩
  have hget : (positionsFrom .first (a ++ c :: b))[byteLength a + (m + 1)]? = some ⟨1 + a.count '\n', 0⟩ := by
    rw [getElem?_positionsFrom_append_add, foldl_after, positionsFrom, List.getElem?_cons_succ,
      List.getElem?_append_left (by simp; omega), List.getElem?_replicate_of_lt (by omega)]
  simp [ofChars, position, hget]

/-- Past the end the position is that of the end. -/
theorem position_past (h : byteLength cs ≤ n) :
    (ofChars cs).position n = (ofChars cs).position (byteLength cs) := by
  have hlength := length_positionsFrom .first cs
  have hlast : (ofChars cs).last.inWords = (ofChars cs).position (byteLength cs) := by
    simp [last, position, ofChars, Array.back?, hlength]
  rcases Nat.eq_or_lt_of_le h with rfl | hlt
  · rfl
  · rw [← hlast, position, Array.getElem?_eq_none (by simp [ofChars, hlength]; omega), Option.getD_none]

end LineIndex

/-! ### The table of line starts -/

namespace LineStarts

theorem inWord_of_le (h : n ≤ Span.maxOffset) : inWord n = n := Nat.min_eq_left h

theorem length_behindLineFeeds (n : Nat) (cs : List Char) :
    (behindLineFeeds n cs).length = cs.count '\n' := by
  induction cs generalizing n with
  | nil => rfl
  | cons c cs ih =>
    rw [behindLineFeeds, List.count_cons]
    by_cases hc : c = '\n' <;> simp [hc, ih]

theorem behindLineFeeds_append (n : Nat) (a b : List Char) :
    behindLineFeeds n (a ++ b) = behindLineFeeds n a ++ behindLineFeeds (n + byteLength a) b := by
  induction a generalizing n with
  | nil => rfl
  | cons c a ih =>
    rw [List.cons_append, behindLineFeeds, behindLineFeeds, ih, byteLength_cons, Nat.add_assoc]
    split <;> rfl

/-- The lines behind the first one start past the offset of the text, in order and not past its end. -/
theorem pairwise_behindLineFeeds (h : n + byteLength cs ≤ Span.maxOffset) :
    (∀ s ∈ behindLineFeeds n cs, n < s ∧ s ≤ n + byteLength cs) ∧ (behindLineFeeds n cs).Pairwise (· < ·) := by
  induction cs generalizing n with
  | nil => simp [behindLineFeeds]
  | cons c cs ih =>
    have hpos := c.utf8Size_pos
    rw [byteLength_cons] at h ⊢
    obtain ⟨hbounds, hpairs⟩ := ih (n := n + c.utf8Size) (by omega)
    have hbounds' : ∀ s ∈ behindLineFeeds (n + c.utf8Size) cs, n < s ∧ s ≤ n + (c.utf8Size + byteLength cs) := by
      intro s hs
      have := hbounds s hs
      omega
    rw [behindLineFeeds, inWord_of_le (by omega)]
    split
    · refine ⟨List.forall_mem_cons.mpr ⟨by omega, hbounds'⟩, List.pairwise_cons.mpr ⟨?_, hpairs⟩⟩
      exact fun s hs => (hbounds s hs).1
    · exact ⟨hbounds', hpairs⟩

/-- The last line of a text starts behind the lines before it. -/
theorem getElem?_behindLineFeeds (h : n + byteLength cs ≤ Span.maxOffset) :
    (n :: behindLineFeeds n cs)[cs.count '\n']? = some (n + byteLength (earlierLines cs)) := by
  induction cs using List.reverseRecOn with
  | nil => rfl
  | append_singleton cs c ih =>
    rw [byteLength_append] at h
    rw [behindLineFeeds_append, earlierLines_concat, List.count_append, List.count_singleton, behindLineFeeds]
    by_cases hc : c = '\n'
    · subst hc
      have hlength := length_behindLineFeeds n cs
      have hsize : '\n'.utf8Size = 1 := rfl
      simp only [byteLength_cons, byteLength_nil] at h
      simp [behindLineFeeds, hlength, hsize, inWord_of_le (n := n + (byteLength cs + 1)) (by omega), Nat.add_assoc]
    · have hget := ih (by omega)
      simpa [behindLineFeeds, hc, Ne.symm hc] using hget

/-! ### The search -/

/-- Where the first `n` numbers of an ordered array are at most `x` and the others are larger, the search finds the last
of the first ones, or that `x` would have to follow them. -/
theorem search_eq {xs : Array Nat} {low high : Nat} (hhigh : high ≤ xs.size)
    (hle : ∀ i (hi : i < xs.size), xs[i] ≤ x ↔ i < n) (hlast : ∀ i (hi : i < xs.size), xs[i] = x → i + 1 = n)
    (hlow : low ≤ n) (hn : n ≤ high) :
    search xs x low high hhigh = .present (n - 1) ∨ search xs x low high hhigh = .absent n := by
  fun_induction search xs x low high hhigh with
  | case1 low high hhigh hlt middle hmiddle heq =>
    have := hlast middle (by omega) heq
    exact .inl (congrArg _ (by omega))
  | case2 low high hhigh hlt middle hmiddle hne hless ih =>
    have := (hle middle (by omega)).mp (by omega)
    exact ih (by omega) hn
  | case3 low high hhigh hlt middle hmiddle hne hless ih =>
    have := (hle middle (by omega)).not.mp (by omega)
    exact ih hlow (by omega)
  | case4 low high hhigh hge => exact .inr (congrArg _ (by omega))

/-- The line of an offset is the last one that starts at or before it. -/
theorem line?_eq {before after : List Nat} (hpairs : (before ++ after).Pairwise (· < ·))
    (hbefore : ∀ s ∈ before, s ≤ x) (hafter : ∀ s ∈ after, x < s) (hlength : before.length = n + 1) :
    (LineStarts.mk (before ++ after).toArray).line? x = some n := by
  have hle : ∀ i (hi : i < (before ++ after).toArray.size), (before ++ after).toArray[i] ≤ x ↔ i < n + 1 := by
    intro i hi
    rw [List.getElem_toArray]
    rcases Nat.lt_or_ge i before.length with hlt | hge
    · rw [List.getElem_append_left hlt]
      exact iff_of_true (hbefore _ (List.getElem_mem hlt)) (by omega)
    · rw [List.getElem_append_right hge]
      exact iff_of_false (Nat.not_le.mpr (hafter _ (List.getElem_mem _))) (by omega)
  have hlast : ∀ i (hi : i < (before ++ after).toArray.size), (before ++ after).toArray[i] = x → i + 1 = n + 1 := by
    intro i hi heq
    have hi' := (hle i hi).mp (Nat.le_of_eq heq)
    by_contra hne
    -- otherwise the next line, too, starts at or before the offset
    have hi₁ : i + 1 < (before ++ after).toArray.size := by
      rw [List.size_toArray, List.length_append]
      omega
    have hnext := (hle (i + 1) hi₁).mpr (by omega)
    have hlt := List.pairwise_iff_getElem.mp hpairs i (i + 1) (by simpa using hi) (by simpa using hi₁) (by omega)
    simp only [List.getElem_toArray] at heq hnext
    omega
  have hsize : n + 1 ≤ (before ++ after).toArray.size := by
    rw [List.size_toArray, List.length_append]
    omega
  rcases search_eq (Nat.le_refl _) hle hlast (Nat.zero_le _) hsize with h | h <;> rw [line?, h]
  rfl

/-! ### The same positions -/

/-- What the table says about an offset behind a leading part, when no line starts between them. -/
theorem position?_append {a b : List Char} (h : byteLength (a ++ b) ≤ Span.maxOffset) (ha : byteLength a ≤ n)
    (hb : ∀ s ∈ behindLineFeeds (byteLength a) b, n < s) :
    (ofChars (a ++ b)).position? (a ++ b) n = some (Position.inWords ⟨1 + a.count '\n',
      ((slice (a ++ b) (byteLength (earlierLines a)) (min n (byteLength (a ++ b)))).map unitLength).getD 0⟩) := by
  have happend := behindLineFeeds_append 0 a b
  have hall := pairwise_behindLineFeeds (show 0 + byteLength (a ++ b) ≤ Span.maxOffset by omega)
  rw [byteLength_append] at h
  have hbefore : 0 + byteLength a ≤ Span.maxOffset := by omega
  obtain ⟨hbounds, -⟩ := pairwise_behindLineFeeds hbefore
  have hget := getElem?_behindLineFeeds hbefore
  rw [Nat.zero_add] at happend hget
  have hline : (ofChars (a ++ b)).line? n = some (a.count '\n') := by
    rw [ofChars, happend]
    rw [happend] at hall
    have hpairs : (0 :: behindLineFeeds 0 a ++ behindLineFeeds (byteLength a) b).Pairwise (· < ·) :=
      List.pairwise_cons.mpr ⟨fun s hs => (hall.1 s hs).1, hall.2⟩
    refine line?_eq hpairs (List.forall_mem_cons.mpr ⟨Nat.zero_le _, fun s hs => ?_⟩) hb ?_
    · have := hbounds s hs
      omega
    · rw [List.length_cons, length_behindLineFeeds]
  have hstart : (ofChars (a ++ b)).offsets[a.count '\n']? = some (byteLength (earlierLines a)) := by
    have hlength := length_behindLineFeeds 0 a
    rw [ofChars, happend, List.getElem?_toArray, ← List.cons_append,
      List.getElem?_append_left (by rw [List.length_cons]; omega), hget]
  rw [position?, hline, Option.bind_eq_bind, Option.bind_some, hstart, Nat.add_comm 1]
  rfl

/-- The text from the start of the last line of a leading part on. -/
theorem slice_lastLine (a b : List Char) :
    slice (a ++ b) (byteLength (earlierLines a)) (byteLength a) = some (lastLine a) := by
  have hslice := slice_append_append (earlierLines a) (lastLine a) b
  rwa [← byteLength_append, earlierLines_append_lastLine] at hslice

/-- A character that is cut leaves no text before the cut. -/
theorem slice_inside (a b : List Char) (hpos : 0 < k) (hlt : k < c.utf8Size) :
    slice (a ++ c :: b) (byteLength (earlierLines a)) (byteLength a + k) = none := by
  have hlength := congrArg byteLength (earlierLines_append_lastLine a)
  rw [byteLength_append] at hlength
  have hdrop := dropBytes_append (earlierLines a) (lastLine a ++ c :: b) 0
  have htake := takeBytes_append (lastLine a) (c :: b) k
  rw [← List.append_assoc, earlierLines_append_lastLine, Nat.add_zero, dropBytes_zero] at hdrop
  obtain ⟨m, rfl⟩ : ∃ m, k = m + 1 := ⟨_, (Nat.succ_pred (by omega)).symm⟩
  rw [takeBytes, if_neg (by omega), Option.map_none] at htake
  rw [slice, if_pos (by omega), hdrop, Option.bind_some, ← htake]
  congr 1
  omega

/-- The table of line starts has a position for every offset, the one of the line index. -/
theorem position?_ofChars (h : byteLength cs ≤ Span.maxOffset) (n : Nat) :
    (ofChars cs).position? cs n = some ((LineIndex.ofChars cs).position n) := by
  cases offset_cases cs n with
  | between a b heq =>
    subst heq
    have hlater : ∀ s ∈ behindLineFeeds (byteLength a) b, byteLength a < s := by
      rw [byteLength_append] at h
      exact fun s hs => ((pairwise_behindLineFeeds h).1 s hs).1
    have hmin : min (byteLength a) (byteLength (a ++ b)) = byteLength a := by
      rw [byteLength_append]
      omega
    rw [position?_append h (Nat.le_refl _) hlater, hmin, slice_lastLine, LineIndex.position_between]
    rfl
  | inside a c b k heq hpos hlt =>
    subst heq
    have hmin : min (byteLength a + k) (byteLength (a ++ c :: b)) = byteLength a + k := by
      rw [byteLength_append, byteLength_cons]
      omega
    -- a line feed is a single byte
    have hc : c ≠ '\n' := by
      rintro rfl
      have hsize : '\n'.utf8Size = 1 := rfl
      omega
    have hlater : ∀ s ∈ behindLineFeeds (byteLength a) (c :: b), byteLength a + k < s := by
      intro s hs
      rw [behindLineFeeds, if_neg hc] at hs
      rw [byteLength_append, byteLength_cons, ← Nat.add_assoc] at h
      have := ((pairwise_behindLineFeeds h).1 s hs).1
      omega
    rw [position?_append h (Nat.le_add_right ..) hlater, hmin, slice_inside a b hpos hlt,
      LineIndex.position_inside a b hpos hlt]
    rfl
  | past n hlt =>
    have hend := position?_append (a := cs) (b := []) (n := n) (by rwa [List.append_nil]) (Nat.le_of_lt hlt)
      fun s hs => absurd hs List.not_mem_nil
    have hposition := LineIndex.position_between cs []
    rw [List.append_nil] at hend hposition
    have hslice := slice_lastLine cs []
    rw [List.append_nil] at hslice
    rw [hend, Nat.min_eq_right (Nat.le_of_lt hlt), hslice, LineIndex.position_past (Nat.le_of_lt hlt), hposition]
    rfl

end LineStarts

/-! ### Exact positions -/

theorem length_le_byteLength (cs : List Char) : cs.length ≤ byteLength cs := by
  induction cs with
  | nil => exact Nat.le_refl _
  | cons c cs ih =>
    have hpos := c.utf8Size_pos
    rw [List.length_cons, byteLength_cons]
    omega

/-- No character has more code units in UTF-16 than bytes in UTF-8. -/
theorem unitLength_le_byteLength (cs : List Char) : unitLength cs ≤ byteLength cs := by
  induction cs with
  | nil => exact Nat.le_refl _
  | cons c cs ih =>
    have hunits : (if c.toNat < 0x10000 then 1 else 2) ≤ c.utf8Size := by
      have hpos := c.utf8Size_pos
      split
      · exact hpos
      · rename_i hlarge
        by_contra hone
        have hval : c.toNat ≤ 127 :=
          UInt32.le_iff_toNat_le.mp (Char.utf8Size_eq_one_iff.mp (show c.utf8Size = 1 by omega))
        omega
    rw [unitLength, byteLength_cons]
    omega

/-- The text of line feeds alone that is as long as a text can be. Behind its last one stands a line whose
number does not fit in 32 bits. -/
def IsAllLineFeeds (cs : List Char) : Prop := cs = List.replicate Span.maxOffset '\n'

/-- A text that fits in 32 bits has no more line feeds than that, and as many only if it has nothing else. -/
theorem count_lt_or_isAllLineFeeds {a b : List Char} (h : byteLength (a ++ b) ≤ Span.maxOffset) :
    a.count '\n' < Span.maxOffset ∨ b = [] ∧ IsAllLineFeeds a := by
  rw [byteLength_append] at h
  have hcount : a.count '\n' ≤ a.length := List.count_le_length
  have ha := length_le_byteLength a
  have hb := length_le_byteLength b
  rcases Nat.lt_or_ge (a.count '\n') Span.maxOffset with hlt | hge
  · exact .inl hlt
  · have hall : a.count '\n' = a.length := by omega
    have hlength : a.length = Span.maxOffset := by omega
    refine .inr ⟨List.length_eq_zero_iff.mp (by omega), ?_⟩
    rw [IsAllLineFeeds, ← hlength]
    exact List.eq_replicate_iff.mpr ⟨rfl, fun c hc => (List.count_eq_length.mp hall c hc).symm⟩

theorem Position.inWords_of_le {p : Position} (hline : p.line ≤ Span.maxOffset)
    (hcolumn : p.column ≤ Span.maxOffset) : p.inWords = p := by
  rw [inWords, inWord, inWord, Nat.min_eq_left hline, Nat.min_eq_left hcolumn]

/-- Behind any other part of a text the position fits in 32 bits. -/
theorem inWords_between (h : byteLength (a ++ b) ≤ Span.maxOffset) (ha : ¬IsAllLineFeeds a) :
    (⟨1 + a.count '\n', unitLength (lastLine a)⟩ : Position).inWords =
      ⟨1 + a.count '\n', unitLength (lastLine a)⟩ := by
  have hcolumn := unitLength_le_byteLength (lastLine a)
  have hlength := congrArg byteLength (earlierLines_append_lastLine a)
  rcases count_lt_or_isAllLineFeeds h with hlt | ⟨-, hall⟩
  · rw [byteLength_append] at hlength h
    exact Position.inWords_of_le (by dsimp only; omega) (by dsimp only; omega)
  · exact absurd hall ha

theorem byteLength_replicate_lineFeed (n : Nat) : byteLength (List.replicate n '\n') = n := by
  induction n with
  | zero => rfl
  | succ n ih =>
    have hsize : '\n'.utf8Size = 1 := rfl
    rw [List.replicate_succ, byteLength_cons, ih, hsize, Nat.add_comm]

theorem lastLine_replicate_lineFeed (n : Nat) : lastLine (List.replicate n '\n') = [] := by
  cases n with
  | zero => rfl
  | succ n => rw [List.replicate_succ', lastLine_concat, if_pos rfl]

theorem IsAllLineFeeds.byteLength_eq (h : IsAllLineFeeds cs) : byteLength cs = Span.maxOffset := by
  rw [h, byteLength_replicate_lineFeed]

theorem IsAllLineFeeds.eq_of_mem {c : Char} (h : IsAllLineFeeds cs) (hc : c ∈ cs) : c = '\n' := by
  rw [h] at hc
  exact List.eq_of_mem_replicate hc

/-- No text that is not too long goes on behind it. -/
theorem IsAllLineFeeds.of_append (h : IsAllLineFeeds a) (hle : byteLength (a ++ b) ≤ Span.maxOffset) :
    IsAllLineFeeds (a ++ b) := by
  have hlength := length_le_byteLength b
  rw [byteLength_append, h.byteLength_eq] at hle
  rw [List.length_eq_zero_iff.mp (show b.length = 0 by omega), List.append_nil]
  exact h

namespace LineIndex

/-- The positions of a text are exact, as its table of line starts has them and as its index does. -/
structure Locates (index : LineIndex) (starts : LineStarts) (cs : List Char) : Prop where
  /-- Every offset has a position: the search never leaves the table. The index has the same one. -/
  total : ∀ n, starts.position? cs n = some (index.position n)
  /-- The line of an offset counts the line feeds before it, its column the code units behind the last of
  them. -/
  exact : ∀ before after, cs = before ++ after → ¬IsAllLineFeeds before →
    starts.position? cs (byteLength before) =
      some ⟨1 + before.count '\n', unitLength (before.rtakeWhile (· ≠ '\n'))⟩
  /-- Only behind as many line feeds as there can be the line is the last one that has a number. -/
  saturated : IsAllLineFeeds cs → starts.position? cs (byteLength cs) = some ⟨Span.maxOffset, 0⟩
  /-- An offset past the end has the position of the end. -/
  past : ∀ n, byteLength cs ≤ n → starts.position? cs n = starts.position? cs (byteLength cs)
  /-- Positions are in the order of the offsets, but for the last two of as many line feeds as there
  can be. -/
  ordered : ∀ m n, IsBoundary cs m → IsBoundary cs n → m < n →
    ¬(IsAllLineFeeds cs ∧ m + 1 = byteLength cs ∧ n = byteLength cs) →
    ∃ p q, starts.position? cs m = some p ∧ starts.position? cs n = some q ∧ p.Before q

/-- Behind `n` line feeds a line starts; its number is the last one when it does not fit. -/
theorem position_replicate (n : Nat) (b : List Char) :
    (ofChars (List.replicate n '\n' ++ b)).position n = ⟨min (1 + n) Span.maxOffset, 0⟩ := by
  have hbetween := position_between (List.replicate n '\n') b
  rw [byteLength_replicate_lineFeed, List.count_replicate_self, lastLine_replicate_lineFeed] at hbetween
  exact hbetween

theorem position_of_isAllLineFeeds (h : IsAllLineFeeds cs) (hn : n ≤ Span.maxOffset) :
    (ofChars cs).position n = ⟨min (1 + n) Span.maxOffset, 0⟩ := by
  obtain ⟨k, hk⟩ := Nat.exists_eq_add_of_le hn
  have hsplit : cs = List.replicate n '\n' ++ List.replicate k '\n' := by
    rw [List.replicate_append_replicate, ← hk]
    exact h
  rw [hsplit, position_replicate]

theorem before_position (h : byteLength cs ≤ Span.maxOffset) {m n : Nat} (hm : IsBoundary cs m)
    (hn : IsBoundary cs n) (hlt : m < n)
    (hlast : ¬(IsAllLineFeeds cs ∧ m + 1 = byteLength cs ∧ n = byteLength cs)) :
    ((ofChars cs).position m).Before ((ofChars cs).position n) := by
  obtain ⟨a, a', rfl, rfl⟩ := hm
  obtain ⟨b, b', heq, rfl⟩ := hn
  by_cases hfeeds : IsAllLineFeeds (a ++ a')
  · have hlength := hfeeds.byteLength_eq
    have hb : byteLength b ≤ Span.maxOffset := by
      rw [← hlength, heq, byteLength_append]
      omega
    rw [position_of_isAllLineFeeds hfeeds (by omega), position_of_isAllLineFeeds hfeeds hb]
    left
    dsimp only
    have hbefore : ¬(byteLength a + 1 = Span.maxOffset ∧ byteLength b = Span.maxOffset) := by
      simpa [hfeeds, hlength] using hlast
    omega
  · rcases List.append_eq_append_iff.mp heq with ⟨mid, rfl, rfl⟩ | ⟨mid, rfl, rfl⟩
    · cases mid with
      | nil => simp at hlt
      | cons c mid =>
        have hsplit : a ++ (c :: mid ++ b') = (a ++ c :: mid) ++ b' := (List.append_assoc ..).symm
        rw [position_ofChars_append, foldl_after, inWords_between h fun ha => hfeeds (ha.of_append h), hsplit,
          position_ofChars_append, foldl_after (a ++ c :: mid),
          inWords_between (hsplit ▸ h) fun hb => hfeeds (hsplit ▸ hb.of_append (hsplit ▸ h)), ← foldl_after,
          ← foldl_after, List.foldl_append]
        exact Position.before_foldl _ c mid
    · rw [byteLength_append] at hlt
      omega

/-- **Lines and columns are exact and in order**, and finding them in the table of line starts never looks
outside of it. -/
theorem locates_ofChars (h : byteLength cs ≤ Span.maxOffset) : (ofChars cs).Locates (.ofChars cs) cs := by
  have htotal := LineStarts.position?_ofChars h
  constructor
  · exact htotal
  · rintro before after rfl hbefore
    rw [htotal, position_between, inWords_between h hbefore]
    rfl
  · intro hfeeds
    rw [htotal, hfeeds.byteLength_eq, position_of_isAllLineFeeds hfeeds (Nat.le_refl _),
      Nat.min_eq_right (Nat.le_add_left ..)]
  · intro n hn
    rw [htotal, htotal, position_past hn]
  · intro m n hm hn hlt hlast
    exact ⟨_, _, htotal m, htotal n, before_position h hm hn hlt hlast⟩

/-- A character of two code units, an offset inside it, a line feed at the end and an offset past the end. -/
theorem locates_ofChars_astral :
    byteLength "a\n😀b\n".toList ≤ Span.maxOffset ∧
      (ofChars "a\n😀b\n".toList).Locates (.ofChars "a\n😀b\n".toList) "a\n😀b\n".toList ∧
      [0, 1, 2, 3, 6, 8, 9].map (ofChars "a\n😀b\n".toList).position =
        [⟨1, 0⟩, ⟨1, 1⟩, ⟨2, 0⟩, ⟨2, 0⟩, ⟨2, 2⟩, ⟨3, 0⟩, ⟨3, 0⟩] :=
  ⟨by decide, locates_ofChars (by decide), by decide⟩

/-- Behind as many line feeds as there can be neither holds without exception: the last line is line 2^32,
which does not fit, and gets the number of the line before it. -/
theorem not_exact_lineFeeds :
    byteLength (List.replicate Span.maxOffset '\n') = Span.maxOffset ∧
      (∀ column, (LineStarts.ofChars (List.replicate Span.maxOffset '\n')).position?
          (List.replicate Span.maxOffset '\n') Span.maxOffset ≠
        some ⟨1 + (List.replicate Span.maxOffset '\n').count '\n', column⟩) ∧
      (LineStarts.ofChars (List.replicate Span.maxOffset '\n')).position?
          (List.replicate Span.maxOffset '\n') (Span.maxOffset - 1) =
        (LineStarts.ofChars (List.replicate Span.maxOffset '\n')).position?
          (List.replicate Span.maxOffset '\n') Span.maxOffset := by
  have hfeeds : IsAllLineFeeds (List.replicate Span.maxOffset '\n') := rfl
  have hlength := byteLength_replicate_lineFeed Span.maxOffset
  have hposition := LineStarts.position?_ofChars (Nat.le_of_eq hlength)
  have hpos : 0 < Span.maxOffset := by decide
  refine ⟨hlength, fun column => ?_, ?_⟩
  · rw [hposition, position_of_isAllLineFeeds hfeeds (Nat.le_refl _), List.count_replicate_self]
    simp only [ne_eq, Option.some.injEq, Position.mk.injEq]
    omega
  · rw [hposition, hposition, position_of_isAllLineFeeds hfeeds (Nat.sub_le ..),
      position_of_isAllLineFeeds hfeeds (Nat.le_refl _), Option.some.injEq, Position.mk.injEq]
    exact ⟨by omega, rfl⟩

end LineIndex

end ScriptAnalysis.Text
