import Tern.Session
import Tern.Proofs.Document.Loads
import Tern.Proofs.Grammar.Placement
import Tern.Proofs.Token.Position

/-!
# Compiled programs

A source is compiled by writing its tree as a document. Of what a document cannot record, a tree
that comes from a source has at most infinite numbers: literals have no sign, and tokens start and
stop at positions that count from one. So the compiled text always is JSON, and it is loaded, as
the same tree, if and only if every literal is finite.

* `Token.Recordable`: a token whose traces in a tree can be written;
* `Program.printable_of_parse`: the tree of a source can be written as JSON;
* `load_compiled`: when a compiled text is loaded, and how what is loaded runs.
-/

namespace Tern

/-! ## Literals -/

namespace Decimal

theorem magnitudeBits_le (d : Decimal) : d.magnitudeBits ≤ Binary.infinityBits := by
  unfold magnitudeBits
  dsimp only
  split
  · exact Nat.zero_le _
  · split
    · split
      · exact Nat.le_refl _
      · exact Nat.min_le_right _ _
    · split
      · exact Nat.zero_le _
      · exact Nat.min_le_right _ _

open Float.Model Float.Model.UnpackedFloat in
/-- Making a double of bits without a sign leaves it without one. -/
theorem toBits_ofBits_lt {n : UInt64} (hn : n.toNat < 2 ^ 63) :
    (Float.ofBits n).toBits.toNat < 2 ^ 63 := by
  have hBits : (Float.ofBits n).toBits.toBitVec =
      UnpackedFloat.pack Format.binary64 (UnpackedFloat.unpack Format.binary64 n.toBitVec) := rfl
  rw [UInt64.toNat, hBits, pack_unpack]
  split
  · decide
  · exact hn

/-- A decimal without a sign is not negative zero. -/
theorem not_isNegativeZero {d : Decimal} (hd : d.negative = false) :
    ¬Number.IsNegativeZero d.toFloat := by
  have hSmall : (UInt64.ofNat (0 + d.magnitudeBits)).toNat < 2 ^ 63 := by
    have hLe := d.magnitudeBits_le
    have hInfinity : Binary.infinityBits < 2 ^ 63 := by decide
    rw [UInt64.toNat_ofNat']
    exact lt_of_le_of_lt (Nat.mod_le _ _) (by omega)
  have hBits : d.toFloat.toBits.toNat < 2 ^ 63 := by
    have hFloat : d.toFloat = Float.ofBits (UInt64.ofNat (0 + d.magnitudeBits)) := by
      unfold toFloat
      rw [hd]
      rfl
    rw [hFloat]
    exact toBits_ofBits_lt hSmall
  rintro ⟨e, he⟩
  obtain ⟨j, -, -, -, -, hSign⟩ := Binary.bits_of_ofFloat he
  rw [if_pos rfl] at hSign
  omega

theorem negative_ofNumeral {c : Char} {cs : List Char} {d : Decimal} (hc : isDigit c = true)
    (h : ofNumeral? (c :: cs) = some d) : d.negative = false := by
  have hSign : takeSign (c :: cs) = (false, c :: cs) := by
    unfold takeSign
    split
    · next hMinus =>
      cases hMinus
      exact absurd hc (by decide)
    · next hPlus =>
      cases hPlus
      exact absurd hc (by decide)
    · rfl
  unfold ofNumeral? at h
  rw [hSign] at h
  dsimp only at h
  split at h
  · split at h
    · cases h
    · obtain ⟨e, -, rfl⟩ := Option.map_eq_some_iff.mp h
      exact negative_normalize _
  · split at h
    · cases h
    · obtain ⟨e, -, rfl⟩ := Option.map_eq_some_iff.mp h
      exact negative_normalize _

end Decimal

/-! ## Tokens -/

/-- A token that leaves recordable nodes behind. -/
structure Token.Recordable (t : Token) : Prop where
  spelled : t.Spelled
  start : t.pos.Recordable
  stop : t.stop.Recordable
  signed : t.kind = .number → ¬Number.IsNegativeZero (Grammar.numberValue t)

theorem Position.recordable_of_within {n : Nat} {p : Position} {cs : List Char}
    (h : p.Within n cs) (hn : n < Decimal.exactBound) : p.Recordable := by
  obtain ⟨hLine, hColumn, hLineLe, hColumnLe⟩ := h
  exact ⟨.of_lt hLine (by omega), .of_lt hColumn (by omega)⟩

instance : Token.Lasting Token.Recordable where
  spelled t ht := ht.spelled
  missingEnd s hs := by
    have hPos : ∀ p : Position, p.Recordable → Token.Recordable (.eof p) := by
      intro p hp
      exact ⟨nofun, hp, hp, nofun⟩
    unfold Input.missingEnd
    cases hLast : s.last with
    | none => exact hPos _ ⟨.of_lt (by decide) (by decide), .of_lt (by decide) (by decide)⟩
    | some t => exact hPos _ (hs.last t hLast).stop

namespace TokenStream

/-- The tokens of a source that is not too long leave recordable nodes behind. -/
theorem recordable_ofSource {source : String}
    (hLength : 1 + Text.unitLength source < Decimal.exactBound) :
    ∀ t ∈ (ofSource source).tokens, t.Recordable := by
  refine each_ofSource source ?_ fun pos hPos => ?_
  · intro kind c cs more pos hPiece hPos
    have hLexeme :
        Text.unitLength (String.ofList (c :: cs.take more)) ≤ Text.unitCount (c :: cs) := by
      have hSplit := Text.unitCount_append (c :: cs.take more) (cs.drop more)
      rw [List.cons_append, List.take_append_drop] at hSplit
      rw [Text.unitLength, String.toList_ofList]
      omega
    have hStop : (Token.ofLexeme kind (c :: cs.take more) pos).stop.Recordable := by
      obtain ⟨hLine, hColumn, hLineLe, hColumnLe⟩ := hPos
      refine ⟨.of_lt hLine (by dsimp only [Token.stop, Token.ofLexeme]; omega), .of_lt ?_ ?_⟩
      · dsimp only [Token.stop, Token.ofLexeme]
        omega
      · dsimp only [Token.stop, Token.ofLexeme]
        omega
    refine ⟨?_, Position.recordable_of_within hPos hLength, hStop, ?_⟩
    · intro hKind
      obtain rfl : kind = .identifier := hKind
      exact Piece.classify_identifier hPiece
    · intro hKind
      obtain rfl : kind = .number := hKind
      change ¬Number.IsNegativeZero (Token.numberOf (c :: cs.take more))
      unfold Token.numberOf
      cases hValue : Decimal.ofNumeral? (c :: cs.take more) with
      | none => exact Decimal.not_isNegativeZero rfl
      | some d =>
        exact Decimal.not_isNegativeZero
          (Decimal.negative_ofNumeral (Piece.classify_number hPiece) hValue)
  · have hPosition := Position.recordable_of_within hPos hLength
    exact ⟨nofun, hPosition, hPosition, nofun⟩

end TokenStream

/-! ## Programs -/

namespace Program

/-- A parsed program is printable. -/
theorem printable_of_parse {source : String} {p : Program} (h : parse? source = .ok p)
    (hLength : 1 + Text.unitLength source < Decimal.exactBound) :
    Node.All Node.Printable (.program p) := by
  have hGrown := grown_of_stream (TokenStream.recordable_ofSource hLength) h
  refine hGrown.all.mono fun n hn => ?_
  obtain ⟨⟨t, u, ht, hu, hSpan⟩, hNumber⟩ := hn
  constructor
  · intro s hs
    rcases hSpan with hSpan | hSpan
    · rw [hSpan] at hs
      cases hs
      exact ⟨ht.start, hu.stop⟩
    · rw [hSpan] at hs
      cases hs
      exact ⟨ht.start, hu.start⟩
  · intro x s hn
    obtain ⟨t, ht, hKind, rfl⟩ := hNumber x s hn
    exact ht.signed hKind

end Program

/-- A compiled source, of a tree that the loader may go deep enough for, is loaded if and only if
all its literals are finite. What is loaded is the tree of the source, so every session runs it
as it runs the source. -/
theorem load_compiled {source : String} {p : Program} (metadata : List (Wide × Wide))
    (hParse : Program.parse? source = .ok p)
    (hLength : 1 + Text.unitLength source < Decimal.exactBound)
    (hFits : Node.FitsIn (Document.maxDepth / 2) (.program p))
    (hNodup : (metadata.map (·.1)).Nodup) (hKeys : Load.reservedKey ∉ metadata.map (·.1)) :
    ∃ text, compile? source metadata = .ok text ∧
      ((∃ d, Document.load text = .ok d) ↔ Node.All Node.Finite (.program p)) ∧
      ∀ d, Document.load text = .ok d → d.metadata = Json.arrange metadata ∧ d.program = p ∧
        ∀ (s : Session) (path : Option String), s.runProgram d.program path = s.run source path := by
  have hPrintable := Program.printable_of_parse hParse hLength
  have hCompile : compile? source metadata = .ok (Document.text ⟨metadata, p⟩) := by
    rw [compile?, hParse]
    rfl
  have hLoads : ∀ d, Document.load (Document.text ⟨metadata, p⟩) = .ok d →
      Node.All Node.Finite (.program p) := by
    intro d hd
    rw [Document.load, Document.parse_text hPrintable] at hd
    exact Load.all_finite_of_loads hPrintable (Load.loads_of_document hd)
  have hLoad : Node.All Node.Finite (.program p) →
      Document.load (Document.text ⟨metadata, p⟩) = .ok ⟨Json.arrange metadata, p⟩ := by
    intro hFinite
    have hAll : Node.All Node.Recordable (.program p) :=
      (hPrintable.and hFinite).mono fun n hn => ⟨hn.1, hn.2⟩
    exact Document.load_of_fits hNodup hKeys hAll hFits
  refine ⟨_, hCompile, ⟨?_, fun hFinite => ⟨_, hLoad hFinite⟩⟩, ?_⟩
  · rintro ⟨d, hd⟩
    exact hLoads d hd
  · intro d hd
    have hSame := hLoad (hLoads d hd)
    rw [hd] at hSame
    cases hSame
    refine ⟨rfl, rfl, fun s path => ?_⟩
    rw [Session.run, hParse]

set_option maxRecDepth 100000 in
/-- A source with a finite literal is loaded from its compiled text, and runs alike. -/
theorem load_compiled_fraction :
    ∃ text d, compile? "print(2.5);" [] = .ok text ∧ Document.load text = .ok d ∧
      ∀ (s : Session) (path : Option String),
        s.runProgram d.program path = s.run "print(2.5);" path := by
  have hTokens : ∃ stream p x program callee literal call statement,
      TokenStream.ofSource "print(2.5);" = stream ∧ Program.ofStream? stream = .ok p ∧
      p = ⟨[.simple (.expr (.call (.name ⟨"print", callee⟩) [.number x literal] call) statement)],
        program⟩ ∧ Number.IsFinite x := by
    refine ⟨?stream, ?p, ?x, ?program, ?callee, ?literal, ?call, ?statement, ?scanned, ?read,
      ?shape, ?finite⟩
    case scanned =>
      change TokenStream.scan [] Position.first
        ['p', 'r', 'i', 'n', 't', '(', '2', '.', '5', ')', ';'] = _
      -- One step for each token; the value of the number stays as it is.
      iterate 5 refine TokenStream.scan_lexeme rfl ?_
      exact TokenStream.scan_nil _ _
    case read => rfl
    case shape => rfl
    case finite => exact ⟨⟨false, 5629499534213120, -51⟩, by decide +kernel⟩
  obtain ⟨stream, p, x, _, _, _, _, _, hStream, hRead, hShape, hx⟩ := hTokens
  have hParse : Program.parse? "print(2.5);" = .ok p := by
    rw [Program.parse?, hStream, hRead]
  have hFits : Node.FitsIn (Document.maxDepth / 2) (.program p) := by
    have hLevels : Node.FitsIn 4 (.program p) := by
      simp [hShape, Node.FitsIn, Node.children, Node.ofStmt, Node.ofSimple, Node.ofExpr]
    exact hLevels.mono (by decide)
  have hFinite : Node.All Node.Finite (.program p) := by
    have hOther : ∀ n : Node, (∀ x s, n ≠ .expr (.number x s)) → n.Finite :=
      fun n hn x s hNumber => absurd hNumber (hn x s)
    subst hShape
    refine .mk (hOther _ (by simp)) ?_
    simp only [Node.children, List.map_cons, List.map_nil, List.forall_mem_singleton]
    refine .mk (hOther _ (by simp)) ?_
    simp only [Node.children, Node.ofStmt, Node.ofSimple, List.forall_mem_singleton]
    refine .mk (hOther _ (by simp)) ?_
    simp only [Node.children, Node.ofExpr, List.map_cons, List.map_nil, List.forall_mem_cons]
    refine ⟨.mk (hOther _ (by simp)) ?_, .mk ?_ ?_, List.forall_mem_nil _⟩
    · exact List.forall_mem_nil _
    · rintro _ _ ⟨⟩
      exact hx
    · exact List.forall_mem_nil _
  obtain ⟨text, hCompile, hLoads, hRuns⟩ :=
    load_compiled [] hParse (by decide) hFits (by decide) (by decide)
  obtain ⟨d, hd⟩ := hLoads.mpr hFinite
  exact ⟨text, d, hCompile, hd, (hRuns d hd).2.2⟩

end Tern
