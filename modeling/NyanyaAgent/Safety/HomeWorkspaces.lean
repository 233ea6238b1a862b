import NyanyaAgent.Bridges.Homes
import NyanyaAgent.Runs.Invariant

/-!
# Whose workspace it is

However the bridges write over each other's temporary file, nobody works in a workspace that was not
assigned to him, or that lies outside of the roots; and an assignment that is not disturbed holds.
-/
namespace NyanyaAgent.Safety
open NyanyaAgent.Bridges NyanyaAgent.Text NyanyaAgent.EnvFile NyanyaAgent.Runs

variable {H : HomeHost} {w w₀ : HomeWorld} {owner : HomeOwner} {entry : HomeEntry}

/-- A file of the disk assigns the entry. -/
def OnDisk (w : HomeWorld) (owner : HomeOwner) (entry : HomeEntry) : Prop :=
  ∃ users, some users ∈ w.files ∧ users owner = some entry

/-- The entry was there at the beginning, or a call sets it. -/
def Assigned (w₀ w : HomeWorld) (owner : HomeOwner) (entry : HomeEntry) : Prop :=
  OnDisk w₀ owner entry ∨ ∃ call ∈ w.calls, call.change = ⟨owner, some entry⟩

/-- All entries are assigned. -/
def AllAssigned (w₀ w : HomeWorld) (users : HomeUsers) : Prop :=
  ∀ owner entry, users owner = some entry → Assigned w₀ w owner entry

/-- What a call carries. -/
def carried : HomeStage → Option HomeUsers
  | .opening users => some users
  | .writing users _ => some users
  | _ => none

/-- The path is allowed, and where an assigned entry leads to. -/
def Granted (H : HomeHost) (w₀ w : HomeWorld) (owner : HomeOwner) (path : HomePath) : Prop :=
  isAllowedWorkspacePath H path = true ∧ ∃ entry, Assigned w₀ w owner entry ∧
    path = H.locate (strip pySpace entry.workspace)

/-- What holds of the disk, the calls and the answers. -/
structure HomesKept (H : HomeHost) (w₀ w : HomeWorld) : Prop where
  disk : ∀ users, some users ∈ w.files → AllAssigned w₀ w users
  calls : ∀ call ∈ w.calls, ∀ users ∈ carried call.stage, AllAssigned w₀ w users
  allowed : ∀ call ∈ w.calls, ∀ entry ∈ call.change.entry, ∃ value workspace,
    resolveWorkspacePath H value = .ok workspace ∧ entry.workspace = H.text workspace
  answers : ∀ a ∈ w.answers, Granted H w₀ w a.1 a.2
  temp : ∀ i ∈ w.temp, i < w.files.length

theorem workspaceForOwner_some {users : HomeUsers} {path : HomePath}
    (h : workspaceForOwner H users owner = some path) :
    isAllowedWorkspacePath H path = true ∧ ∃ entry, users owner = some entry ∧
      path = H.locate (strip pySpace entry.workspace) := by
  unfold workspaceForOwner at h
  cases hentry : users owner with
  | none => simp [hentry] at h
  | some entry =>
    simp only [hentry] at h
    split_ifs at h with hblank hallowed
    obtain rfl := Option.some.inj h
    exact ⟨hallowed, entry, rfl, rfl⟩

theorem executionWorkspace_ok {users : HomeUsers} {isDir : Bool} {path : HomePath}
    (h : executionWorkspace H users owner isDir = .ok path) :
    workspaceForOwner H users owner = some path := by
  unfold executionWorkspace at h
  split at h
  · cases h
  · rename_i found hfound
    split_ifs at h
    rw [hfound, Except.ok.inj h]

/-- What is loaded is on the disk. -/
theorem loadConfig_mem (w : HomeWorld) :
    some (loadConfig w) ∈ w.files ∨ loadConfig w = fun _ => none := by
  unfold loadConfig
  split
  · rename_i users hload
    obtain ⟨i, _, hi⟩ := Option.bind_eq_some_iff.mp hload
    exact .inl (List.mem_of_getElem? hi)
  · exact .inr rfl

/-- The changes of the calls stay. -/
def SameChanges (w w' : HomeWorld) : Prop :=
  ∀ call ∈ w.calls, ∃ call' ∈ w'.calls, call'.change = call.change

theorem AllAssigned.mono {w' : HomeWorld} {users : HomeUsers} (h : AllAssigned w₀ w users)
    (hchanges : SameChanges w w') : AllAssigned w₀ w' users := by
  intro owner entry hentry
  rcases h owner entry hentry with hdisk | ⟨call, hcall, hchange⟩
  · exact .inl hdisk
  · obtain ⟨call', hcall', hsame⟩ := hchanges call hcall
    exact .inr ⟨call', hcall', hsame.trans hchange⟩

theorem Granted.mono {w' : HomeWorld} {path : HomePath} (h : Granted H w₀ w owner path)
    (hchanges : SameChanges w w') : Granted H w₀ w' owner path := by
  obtain ⟨hallowed, entry, hassigned, hpath⟩ := h
  refine ⟨hallowed, entry, ?_, hpath⟩
  rcases hassigned with hdisk | ⟨call, hcall, hchange⟩
  · exact .inl hdisk
  · obtain ⟨call', hcall', hsame⟩ := hchanges call hcall
    exact .inr ⟨call', hcall', hsame.trans hchange⟩

theorem sameChanges_set {n : ℕ} {call : HomeCall} (hn : w.calls[n]? = some call)
    (stage : HomeStage) {w' : HomeWorld}
    (hcalls : w'.calls = w.calls.set n { call with stage }) : SameChanges w w' := by
  intro c hc
  obtain ⟨m, hm⟩ := List.mem_iff_getElem?.mp hc
  rw [hcalls]
  by_cases hmn : n = m
  · subst hmn
    obtain rfl := Option.some.inj (hn.symm.trans hm)
    have hlt : n < w.calls.length := (List.getElem?_eq_some_iff.mp hn).1
    exact ⟨_, List.mem_set hlt _, rfl⟩
  · refine ⟨c, List.mem_iff_getElem?.mpr ⟨m, ?_⟩, rfl⟩
    rw [List.getElem?_set_ne hmn]
    exact hm

namespace HomesKept

theorem loaded (h : HomesKept H w₀ w) : AllAssigned w₀ w (loadConfig w) := by
  rcases loadConfig_mem w with hmem | hnone
  · exact h.disk _ hmem
  · rw [hnone]
    intro owner entry hentry
    cases hentry

/-- What a call makes of assigned entries is assigned, as it sets its own. -/
theorem applied (h : HomesKept H w₀ w) {call : HomeCall} (hcall : call ∈ w.calls) :
    AllAssigned w₀ w (call.change.apply (loadConfig w)) := by
  intro owner entry hentry
  unfold HomeChange.apply at hentry
  by_cases howner : owner = call.change.owner
  · subst howner
    rw [Function.update_self] at hentry
    exact .inr ⟨call, hcall, by rw [← hentry]⟩
  · rw [Function.update_of_ne howner] at hentry
    exact h.loaded owner entry hentry

/-- A call takes a step that puts on the disk what the calls carry. -/
theorem moved (h : HomesKept H w₀ w) {n : ℕ} {call : HomeCall} (hn : w.calls[n]? = some call)
    {stage : HomeStage} {w' : HomeWorld} (hcalls : w'.calls = w.calls.set n { call with stage })
    (hanswers : w'.answers = w.answers)
    (hdisk : ∀ users, some users ∈ w'.files → AllAssigned w₀ w users)
    (hcarried : ∀ users ∈ carried stage, AllAssigned w₀ w users)
    (htemp : ∀ i ∈ w'.temp, i < w'.files.length) : HomesKept H w₀ w' := by
  have hchanges := sameChanges_set hn stage hcalls
  refine ⟨fun users husers => (hdisk users husers).mono hchanges, ?_, ?_, ?_, htemp⟩
  · intro c hc users husers
    rw [hcalls] at hc
    rcases List.mem_or_eq_of_mem_set hc with hc | rfl
    · exact (h.calls c hc users husers).mono hchanges
    · exact (hcarried users husers).mono hchanges
  · intro c hc
    rw [hcalls] at hc
    rcases List.mem_or_eq_of_mem_set hc with hc | rfl
    · exact h.allowed c hc
    · exact h.allowed call (List.mem_of_getElem? hn)
  · intro a ha
    rw [hanswers] at ha
    exact (h.answers a ha).mono hchanges

theorem started (h : HomesKept H w₀ w) (change : HomeChange)
    (hallowed : ∀ entry ∈ change.entry, ∃ value workspace,
      resolveWorkspacePath H value = .ok workspace ∧ entry.workspace = H.text workspace) :
    HomesKept H w₀ { w with calls := w.calls ++ [{ change := change }] } := by
  have hchanges : SameChanges w { w with calls := w.calls ++ [{ change := change }] } :=
    fun call hcall => ⟨call, List.mem_append_left _ hcall, rfl⟩
  refine ⟨fun users husers => (h.disk users husers).mono hchanges, ?_, ?_,
    fun a ha => (h.answers a ha).mono hchanges, h.temp⟩
  · intro call hcall users husers
    rcases List.mem_append.mp hcall with hcall | hcall
    · exact (h.calls call hcall users husers).mono hchanges
    · obtain rfl := List.mem_singleton.mp hcall
      cases husers
  · intro call hcall
    rcases List.mem_append.mp hcall with hcall | hcall
    · exact h.allowed call hcall
    · obtain rfl := List.mem_singleton.mp hcall
      exact hallowed

theorem step (h : HomesKept H w₀ w) (n : ℕ) (left : HomeText) (fails : Bool)
    (hleft : Unmixed w (.step n left fails)) :
    HomesKept H w₀ (stepHomes H w (.step n left fails)) := by
  simp only [stepHomes]
  cases hn : w.calls[n]? with
  | none => exact h
  | some call =>
    have hcall := List.mem_of_getElem? hn
    have hcarried := h.calls call hcall
    -- a file that is emptied or half written is none that assigns anything
    have hset : ∀ (i : ℕ) (text : HomeText), (∀ users ∈ text, AllAssigned w₀ w users) →
        ∀ users, some users ∈ w.files.set i text → AllAssigned w₀ w users := by
      intro i text htext users husers
      rcases List.mem_or_eq_of_mem_set husers with hmem | heq
      · exact h.disk users hmem
      · exact htext users heq.symm
    have hlength : ∀ (i : ℕ) (text : HomeText), ∀ j ∈ w.temp, j < (w.files.set i text).length := by
      intro i text j hj
      rw [List.length_set]
      exact h.temp j hj
    simp only [homeStep]
    split
    · refine h.moved hn rfl rfl h.disk (fun users husers => ?_) h.temp
      obtain rfl := Option.some.inj husers
      exact h.applied hcall
    · rename_i users hstage
      rw [hstage] at hcarried
      cases htemp : w.temp with
      | some i =>
        refine h.moved hn rfl rfl (hset i none fun _ hnone => by cases hnone) hcarried
          fun j hj => ?_
        exact hlength i none j (htemp.trans hj)
      | none =>
        refine h.moved hn rfl rfl (fun users' husers' => ?_) hcarried fun i hi => ?_
        · rcases List.mem_append.mp husers' with hmem | hmem
          · exact h.disk users' hmem
          · simp at hmem
        · obtain rfl := Option.some.inj hi
          simp
    · rename_i users i hstage
      rw [hstage] at hcarried
      refine h.moved hn rfl rfl (hset i _ fun users' husers' => ?_) (fun users' husers' => ?_)
        (hlength i _)
      · rcases hleft call hn users i hstage with rfl | rfl
        · exact hcarried users' husers'
        · cases husers'
      · split_ifs at husers' <;> cases husers'
    · cases htemp : w.temp with
      | some i =>
        refine h.moved hn rfl rfl h.disk (fun _ hnone => by cases hnone) fun _ hnone => ?_
        cases hnone
      | none => exact h.moved hn rfl rfl h.disk (fun _ hnone => by cases hnone) h.temp
    · exact h.moved hn rfl rfl h.disk (fun _ hnone => by cases hnone) h.temp
    · exact h.moved hn rfl rfl h.disk (fun _ hnone => by cases hnone) h.temp

theorem action (h : HomesKept H w₀ w) {a : HomeAction} (ha : Unmixed w a) :
    HomesKept H w₀ (stepHomes H w a) := by
  cases a with
  | setHome target value setBy setAt =>
    simp only [stepHomes]
    split
    · exact h
    · rename_i workspace hworkspace
      apply h.started
      intro entry hentry
      obtain rfl := Option.some.inj hentry
      exact ⟨value, workspace, hworkspace, rfl⟩
  | unsetHome target => exact h.started _ fun _ hnone => by cases hnone
  | step n left fails => exact h.step n left fails ha
  | die n =>
    simp only [stepHomes]
    cases hn : w.calls[n]? with
    | none => exact h
    | some call => exact h.moved hn rfl rfl h.disk (fun _ hnone => by cases hnone) h.temp
  | work owner isDir =>
    simp only [stepHomes]
    split
    · exact h
    · rename_i path hpath
      refine ⟨h.disk, h.calls, h.allowed, fun a ha => ?_, h.temp⟩
      rcases List.mem_append.mp ha with ha | ha
      · exact h.answers a ha
      · obtain rfl := List.mem_singleton.mp ha
        obtain ⟨hallowed, entry, hentry, heq⟩ :=
          workspaceForOwner_some (executionWorkspace_ok hpath)
        exact ⟨hallowed, entry, h.loaded owner entry hentry, heq⟩

theorem init (H : HomeHost) (files : List HomeText) (config : Option ℕ) :
    HomesKept H { files, config } { files, config } where
  disk := fun users husers _ _ hentry => .inl ⟨users, husers, hentry⟩
  calls := fun _ hcall => by cases hcall
  allowed := fun _ hcall => by cases hcall
  answers := fun _ ha => by cases ha
  temp := fun _ hi => by cases hi

end HomesKept

/-- The four calls of the system of one assignment that writes the users, with no other in
between. -/
def undisturbed (n : ℕ) (users : HomeUsers) : List HomeAction :=
  [.step n none false, .step n none false, .step n (some users) false, .step n none false]

theorem stepHomes_step {n : ℕ} {call : HomeCall} (hn : w.calls[n]? = some call)
    (left : HomeText) (fails : Bool) : stepHomes H w (.step n left fails) =
      { (homeStep call left fails w).2 with
        calls := w.calls.set n { call with stage := (homeStep call left fails w).1 } } := by
  simp only [stepHomes, hn]

/-- The place of a call, after it has taken a step. -/
theorem getElem?_stepped {n : ℕ} {call : HomeCall} (hn : w.calls[n]? = some call)
    (call' : HomeCall) : (w.calls.set n call')[n]? = some call' :=
  List.getElem?_set_self (List.getElem?_eq_some_iff.mp hn).1

/-- The last two calls of the system put the text in its place. -/
theorem written_effect {n i : ℕ} {change : HomeChange} {users : HomeUsers}
    (hn : w.calls[n]? = some ⟨change, .writing users i⟩) (htemp : w.temp = some i)
    (hi : i < w.files.length) :
    loadConfig (stepHomes H (stepHomes H w (.step n (some users) false)) (.step n none false)) =
      users := by
  have hwrite : stepHomes H w (.step n (some users) false) =
      { w with files := w.files.set i (some users)
               calls := w.calls.set n ⟨change, .replacing⟩ } := by
    rw [stepHomes_step hn]
    rfl
  rw [hwrite]
  have hreplace := stepHomes_step (H := H)
    (w := { w with files := w.files.set i (some users)
                   calls := w.calls.set n ⟨change, .replacing⟩ })
    (getElem?_stepped hn ⟨change, .replacing⟩) none false
  rw [hreplace]
  simp [homeStep, htemp, loadConfig, hi]

theorem undisturbed_effect {n : ℕ} {change : HomeChange}
    (hn : w.calls[n]? = some ⟨change, .loading⟩)
    (htemp : ∀ i ∈ w.temp, i < w.files.length) :
    loadConfig ((undisturbed n (change.apply (loadConfig w))).foldl (stepHomes H) w) =
      change.apply (loadConfig w) := by
  have hload : stepHomes H w (.step n none false) =
      { w with calls := w.calls.set n ⟨change, .opening (change.apply (loadConfig w))⟩ } := by
    rw [stepHomes_step hn]
    rfl
  simp only [undisturbed, List.foldl_cons, List.foldl_nil]
  rw [hload]
  have hopened := getElem?_stepped hn ⟨change, .opening (change.apply (loadConfig w))⟩
  have hopen := stepHomes_step (H := H)
    (w := { w with calls := w.calls.set n ⟨change, .opening (change.apply (loadConfig w))⟩ })
    hopened none false
  rw [hopen]
  cases hw : w.temp with
  | some i =>
    simp only [homeStep]
    refine written_effect (getElem?_stepped (w := { w with calls := _ }) hopened _) rfl ?_
    rw [List.length_set]
    exact htemp i hw
  | none =>
    simp only [homeStep]
    refine written_effect (getElem?_stepped (w := { w with calls := _ }) hopened _) rfl ?_
    simp

/-- Whatever the file of assignments held, over every run of bridges that set and unset homes, in
any order of their calls of the system, with writes that meet in one file, fail or stop halfway, and
leave no JSON object but the one that they write: every entry on the disk is one that was there or one that a call sets for just this owner, to a
workspace that was allowed; every workspace that an owner got to work in is where such an entry of
his leads to, and allowed; and a call with no other in between changes its own owner's entry and
nothing else. -/
theorem homes_kept {files : List HomeText} {config : Option ℕ} {actions : List HomeAction}
    (hrun : Run (stepHomes H) Unmixed { files, config } actions w) :
    HomesKept H { files, config } w ∧ ∀ change : HomeChange,
      loadConfig ((undisturbed w.calls.length (change.apply (loadConfig w))).foldl (stepHomes H)
        { w with calls := w.calls ++ [⟨change, .loading⟩] }) = change.apply (loadConfig w) := by
  have hkept : HomesKept H { files, config } w :=
    hrun.invariant (fun _ _ h ha => h.action ha) (HomesKept.init H files config)
  refine ⟨hkept, fun change => ?_⟩
  have hn : (w.calls ++ [⟨change, .loading⟩])[w.calls.length]? =
      some (⟨change, .loading⟩ : HomeCall) := List.getElem?_concat_length
  exact undisturbed_effect (w := { w with calls := w.calls ++ [⟨change, .loading⟩] }) hn hkept.temp

section Examples

def plainHomes : HomeHost where
  roots := [["srv"]]
  parse value := (true, ["srv", String.ofList value])
  resolve := id
  locate value := ["srv", String.ofList value]
  text path := (path.getLast?.getD "").toList

def homeOf (owner : HomeOwner) (value : List Char) : HomeUsers :=
  HomeChange.apply ⟨owner, some ⟨value, ['m'], []⟩⟩ fun _ => none

/-- The second bridge writes into the file that the first one has just put in place. -/
def twoBridges : List HomeAction :=
  [.setHome ['o'] ['a'] ['m'] [], .setHome ['p'] ['b'] ['m'] [], .step 0 none false,
    .step 1 none false, .step 0 none false, .step 1 none false,
    .step 0 (some (homeOf ['o'] ['a'])) false, .step 0 none false,
    .step 1 (some (homeOf ['p'] ['b'])) false, .step 1 none false, .work ['o'] true,
    .work ['p'] true]

def plainBridges : HomeWorld := twoBridges.foldl (stepHomes plainHomes) {}

theorem unmixed_whole {n : ℕ} {call : HomeCall} {users : HomeUsers} {i : ℕ} {fails : Bool}
    (hn : w.calls[n]? = some call) (hstage : call.stage = .writing users i) :
    Unmixed w (.step n (some users) fails) := by
  intro call' hcall' users' i' hstage'
  obtain rfl := Option.some.inj (hn.symm.trans hcall')
  rw [hstage] at hstage'
  cases hstage'
  exact .inl rfl

theorem unmixed_none {n : ℕ} {fails : Bool} : Unmixed w (.step n none fails) :=
  fun _ _ _ _ _ => .inr rfl

theorem twoBridges_run : Run (stepHomes plainHomes) Unmixed {} twoBridges plainBridges := by
  refine .cons trivial (.cons trivial (.cons unmixed_none (.cons unmixed_none
    (.cons unmixed_none (.cons unmixed_none (.cons (unmixed_whole rfl rfl) (.cons unmixed_none
      (.cons (unmixed_whole rfl rfl) (.cons unmixed_none (.cons trivial
        (.cons trivial (.nil _))))))))))))

/-- The first owner gets no workspace, the second one his own. -/
theorem homes_kept_plain : plainBridges.answers = [(['p'], ["srv", "b"])] ∧
    HomesKept plainHomes {} plainBridges :=
  ⟨by decide +kernel, (homes_kept twoBridges_run).1⟩

end Examples
end NyanyaAgent.Safety
