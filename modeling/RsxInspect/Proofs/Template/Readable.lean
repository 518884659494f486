import RsxInspect.Document
import RsxInspect.Proofs.Scan.Spacing

/-!
# Which files are read

`Document.parse?` gives nothing for two sorts of files: those whose own scan stands still, and those
with an attribute value whose scan does (`Document.valuesEnd`). All others are read from their
significant tokens (`Document.parse?_eq_ite`). So a file whose scan reaches the end is read exactly if
`valuesEnd` holds of its tokens (`Document.isSome_parse?`), and what holds of `Document.ofTokens` on
these tokens holds of whatever is read (`Document.eq_of_parse?`).
-/

namespace RsxInspect

/-- The value that `valueBehind?` finds is one of the tokens there, of its kind. -/
theorem mem_of_valueBehind? {v : Token} {ts : List Token} (h : valueBehind? ts = some v) :
    v ∈ ts ∧ v.kind = .attrValue := by
  unfold valueBehind? at h
  split at h
  · split at h
    · rename_i hkinds
      obtain rfl := Option.some.inj h
      rw [Bool.and_eq_true, beq_iff_eq, beq_iff_eq] at hkinds
      exact ⟨List.mem_cons_of_mem _ (List.mem_cons_self ..), hkinds.2⟩
    · cases h
  · cases h

theorem mem_attributeValues {v : Token} {ts : List Token} (h : v ∈ attributeValues ts) :
    v ∈ ts ∧ v.kind = .attrValue := by
  induction ts with
  | nil => cases h
  | cons t ts ih =>
    have hhere : v ∈ ts ∧ v.kind = .attrValue := by
      rw [attributeValues] at h
      split at h
      · rcases List.mem_append.mp h with h | h
        · exact mem_of_valueBehind? (Option.mem_toList.mp h)
        · exact ih h
      · exact ih h
    exact ⟨List.mem_cons_of_mem t hhere.1, hhere.2⟩

namespace Document

variable {source : String}

/-- A value without braces is not scanned again, so it cannot make `valuesEnd` false. -/
theorem valuesEnd_of_not_braced {ts : List Token}
    (h : ∀ t ∈ ts, t.kind = .attrValue →
      ¬ Delimiter.openBraces.isPrefixOf (t.text source).toList = true) :
    valuesEnd source ts = true := by
  refine List.all_eq_true.mpr fun t ht => ?_
  obtain ⟨hmem, hkind⟩ := mem_attributeValues ht
  rw [AttributeValue.scanEnds, Bool.eq_false_iff.mpr (h t hmem hkind)]
  rfl

/-- **Reading a file.** A file whose scan reaches the end is read by `ofTokens` from its significant
tokens, unless the scan of a value in it stands still, which makes `valuesEnd` false. -/
theorem parse?_eq_ite (withTrees : Bool) (h : (Scanner.ofSource source).toEnd?.isSome = true) :
    parse? source withTrees =
      if valuesEnd source (significantTokens source) then
        some (ofTokens ⟨source, withTrees⟩ (significantTokens source))
      else none := by
  obtain ⟨⟨tokens, s⟩, htoEnd⟩ := Option.isSome_iff_exists.mp h
  obtain ⟨hreads, hend⟩ := Scanner.toEnd?_eq_some_iff.mp htoEnd
  have htokens : (Scanner.ofSource source).toEnd.1.toList = tokens.toList := by
    rw [Scanner.toEnd, hreads.toEndFrom hend]
    simp
  rw [parse?, htoEnd, significantTokens, htokens]
  rfl

/-- Whether a file is read does not depend on whether trees are wanted. -/
theorem isSome_parse? (withTrees : Bool) (h : (Scanner.ofSource source).toEnd?.isSome = true) :
    (parse? source withTrees).isSome = valuesEnd source (significantTokens source) := by
  rw [parse?_eq_ite withTrees h]
  split
  · rename_i hvalues
    rw [hvalues]
    rfl
  · rename_i hvalues
    rw [Bool.eq_false_iff.mpr hvalues]
    rfl

/-- The scan of the file reaches the end, but that of the value stands still behind the closing tag
in it, at a `$` in a tag. So the file is not read. -/
example :
    let source := String.ofList
      "<template><p a=\x7b\x7b </template><template><$ \x7d\x7d></p></template>".toList
    (Scanner.ofSource source).toEnd?.isSome = true ∧
      ∀ withTrees, (parse? source withTrees).isSome = false := by
  decide +kernel

/-- A file that `parse?` reads has a scan that reaches the end, and is read from its significant
tokens. -/
theorem eq_of_parse? {withTrees : Bool} {parsed : Parsed}
    (h : parse? source withTrees = some parsed) :
    (Scanner.ofSource source).toEnd?.isSome = true ∧
      parsed = ofTokens ⟨source, withTrees⟩ (significantTokens source) := by
  have hend : (Scanner.ofSource source).toEnd?.isSome = true := by
    obtain ⟨run, hrun, -⟩ := Option.bind_eq_some_iff.mp h
    rw [hrun]
    rfl
  rw [parse?_eq_ite withTrees hend] at h
  split at h
  · exact ⟨hend, (Option.some.inj h).symm⟩
  · cases h

/-- What holds of the tokens of a file holds of whatever `parse?` gives. -/
theorem forall_parse? {P : Parsed → Prop} (withTrees : Bool)
    (h : (Scanner.ofSource source).toEnd?.isSome = true)
    (hP : P (ofTokens ⟨source, withTrees⟩ (significantTokens source))) :
    (parse? source withTrees).isSome = valuesEnd source (significantTokens source) ∧
      ∀ parsed, parse? source withTrees = some parsed → P parsed := by
  refine ⟨isSome_parse? withTrees h, fun parsed hparsed => ?_⟩
  obtain ⟨-, rfl⟩ := eq_of_parse? hparsed
  exact hP

end Document

end RsxInspect
