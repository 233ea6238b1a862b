import NyanyaAgent.Drafts.Lifecycle

/-!
# Private path parts

`private_path_part` over the case folding of the source's language, and the directory
of a draft, none of whose parts is private.
-/
namespace NyanyaAgent.Plans
open NyanyaAgent.Schema NyanyaAgent.Relational NyanyaAgent.Operations NyanyaAgent.Drafts

def privatePathParts : List String :=
  [".git", ".env", ".venv", "node_modules", "__pycache__", ".codex", ".gemini", ".ssh", ".aws",
    "data", "logs", "run", "sessions", "private", "downloads", "user_workspaces.json",
    "local_system.md", "credentials.json", "auth.json", "backups", "backup", "reports"]

def privatePrefixes : List String :=
  ["backup-", "backup_", "backups-", "backups_", "report-", "report_", "reports-", "reports_"]

def privatePathPart (casefold : String → String) (part : String) : Bool :=
  let name := (casefold part).toList
  privatePathParts.any (fun p => decide (p.toList = name)) ||
    privatePrefixes.any (fun p => p.toList.isPrefixOf name) || ".env".toList.isPrefixOf name ||
    "agents".toList.isPrefixOf name && (".md".toList.isSuffixOf name ||
      name.tails.any (fun rest => ".md.".toList.isPrefixOf rest) ||
      [".bak", ".backup", "~"].any fun p => p.toList.isSuffixOf name)

def FoldedChar (c : Char) : Prop := c.isLower = true ∨ c.isDigit = true ∨ c = '_' ∨ c = '-'

instance (c : Char) : Decidable (FoldedChar c) := by unfold FoldedChar; infer_instance

/-- `str.casefold` on lower case letters, digits, underscores and dashes. -/
def KeepsFolded (casefold : String → String) : Prop :=
  ∀ s : String, (∀ c ∈ s.toList, FoldedChar c) → casefold s = s

/-- `directory`. -/
def draftDirectory (d : DraftId) : Path := ["nyanya-tasks", "drafts", s!"draft_{d}"]

theorem planDirectory_draft (draft : OperationDraft) (taskKind stamp : String) :
    planDirectory (some draft) taskKind stamp = draftDirectory draft.id := rfl

theorem toList_draftName (d : DraftId) : (s!"draft_{d}").toList =
    'd' :: 'r' :: 'a' :: 'f' :: 't' :: '_' :: Nat.toDigits 10 d := by
  have hsplit : (s!"draft_{d}").toList = "draft_".toList ++ (toString d).toList :=
    String.toList_append
  rw [hsplit]
  simp [Nat.toString_eq_repr, Nat.repr]

theorem folded_draftName (d : DraftId) {c : Char} (h : c ∈ (s!"draft_{d}").toList) :
    FoldedChar c := by
  rw [toList_draftName] at h
  simp only [List.mem_cons] at h
  rcases h with rfl | rfl | rfl | rfl | rfl | rfl | h
  all_goals try decide
  exact .inr (.inl (Nat.isDigit_of_mem_toDigits (by decide) (by decide) h))

theorem folded_of_all {s : String} (h : s.toList.all (fun c => decide (FoldedChar c)) = true) :
    ∀ c ∈ s.toList, FoldedChar c :=
  fun c hc => of_decide_eq_true (List.all_eq_true.mp h c hc)

theorem folded_draftDirectory {d : DraftId} {part : String} (h : part ∈ draftDirectory d) :
    ∀ c ∈ part.toList, FoldedChar c := by
  simp only [draftDirectory, List.mem_cons, List.not_mem_nil, or_false] at h
  rcases h with rfl | rfl | rfl
  · exact folded_of_all (by decide)
  · exact folded_of_all (by decide)
  · exact fun c => folded_draftName d

theorem draftDirectory_not_private {casefold : String → String} (hf : KeepsFolded casefold)
    {d : DraftId} {part : String} (h : part ∈ draftDirectory d) :
    privatePathPart casefold part = false := by
  unfold privatePathPart
  rw [hf part (folded_draftDirectory h)]
  simp only [draftDirectory, List.mem_cons, List.not_mem_nil, or_false] at h
  rcases h with rfl | rfl | rfl
  · decide +kernel
  · decide +kernel
  · rw [toList_draftName]
    simp [privatePathParts, privatePrefixes, List.isPrefixOf]

end NyanyaAgent.Plans
