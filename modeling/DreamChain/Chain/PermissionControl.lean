import DreamChain.Chain.PermissionTree
import DreamChain.Chain.AuthorizationManager

/-!
Who controls a permission. The authorizations of a transaction are checked once, against the
permissions as they are before it; each action is then executed on the permissions that the
actions before it have left.

While a permission is not removed, the permissions above it stay the same, because they have a
child. So what was checked still holds when the action is executed, unless the transaction has
removed the permission and creates it again: the check has then looked at the old permission
and not at the parent of the new one.
-/

namespace DreamChain
open Library List FlatMap

section Steps

def Action.IsPermissionAction (act : Action) : Prop :=
  act.account = config.systemAccountName ∧
    act.name ∈ [UpdateAuth.getName, DeleteAuth.getName, LinkAuth.getName, UnlinkAuth.getName]

instance (act : Action) : Decidable act.IsPermissionAction := inferInstanceAs (Decidable (_ ∧ _))

def Action.Deletes (act : Action) (l : PermissionLevel) : Prop :=
  act.data = .deleteauth ⟨l.actor, l.permission⟩

/-- The action creates or modifies this permission, with the parent that is given. -/
def Action.Updates (act : Action) (l : PermissionLevel) (parent : PermissionName) : Prop :=
  ∃ auth, act.data = .updateauth ⟨l.actor, l.permission, parent, auth⟩

variable {E : Environment} {act : Action} {db db' : ChainDb}

structure PermissionStep (db : ChainDb) (act : Action) (db' : ChainDb) : Prop where
  tree : db'.TreeShaped
  survives : ∀ {l p}, db.permissions.find? l = some p → ¬ act.Deletes l →
    ∃ p', db'.permissions.find? l = some p' ∧ p'.id = p.id ∧ p'.parent = p.parent
  deleted : ∀ {l}, act.Deletes l → l ∉ db'.permissions.keys ∧ ∃ p, db.permissions.find? l = some p ∧
    ∀ q ∈ db.permissions.values, q.parent ≠ p.id
  updated : ∀ {l parent}, act.Updates l parent → l ∈ db'.permissions.keys
  created : ∀ {l}, l ∈ db'.permissions.keys → l ∉ db.permissions.keys → ∃ parent, act.Updates l parent
  parent : ∀ {l parent}, act.Updates l parent → l ∉ db.permissions.keys →
    ⟨l.actor, parent⟩ ∈ db.permissions.keys ∧ Parent db'.permissions l ⟨l.actor, parent⟩

theorem UpdateauthEffect.permissionStep {update : UpdateAuth} (htree : db.TreeShaped)
    (htree' : db'.TreeShaped) (hdata : act.data = .updateauth update)
    (h : UpdateauthEffect db update db') : PermissionStep db act db' := by
  have hdeletes : ∀ {l}, ¬ act.Deletes l := by
    intro l hl
    rw [Action.Deletes, hdata] at hl
    cases hl
  have hupdates : ∀ {l parent}, act.Updates l parent →
      l = ⟨update.account, update.permission⟩ ∧ parent = update.parent := by
    rintro l parent ⟨auth, hl⟩
    rw [hdata] at hl
    cases hl
    exact ⟨rfl, rfl⟩
  cases h with
  | modify hp _ hcharge =>
    have hperm := (SameAuthorization.addRamUsage hcharge).permissions
    have hmem := mem_keys_of_find? hp
    refine ⟨htree', fun {l p} hl _ => ?_, fun hl => absurd hl hdeletes, fun hl => ?_,
      fun {l} hl habsent => ?_, fun hl habsent => absurd ((hupdates hl).1 ▸ hmem) habsent⟩
    · rw [hperm, ChainDb.modifyPermission, find?_insert]
      split
      · rename_i heq
        subst heq
        cases hl.symm.trans hp
        exact ⟨_, rfl, rfl, rfl⟩
      · exact ⟨p, hl, rfl, rfl⟩
    · rw [hperm, (hupdates hl).1]
      exact (mem_keys_insert _ _ _ _).mpr (.inl rfl)
    · rw [hperm] at hl
      cases (mem_keys_insert _ _ _ _).mp hl with
      | inl heq => exact absurd (heq ▸ hmem) habsent
      | inr hold => exact absurd hold habsent
  | create haccount _ hnew hparent hcharge =>
    have hperm := (SameAuthorization.addRamUsage hcharge).permissions
    have hkeep : ∀ {l p}, db.permissions.find? l = some p →
        db'.permissions.find? l = some p := by
      intro l p hl
      rw [hperm]
      exact (db.permissions.find?_insert_absent hnew).mpr (.inr hl)
    refine ⟨htree', fun {l p} hl _ => ⟨p, hkeep hl, rfl, rfl⟩, fun hl => absurd hl hdeletes,
      fun hl => ?_, fun {l} hl habsent => ?_, fun {l parent} hl _ => ?_⟩
    · rw [hperm, (hupdates hl).1]
      exact (mem_keys_insert _ _ _ _).mpr (.inl rfl)
    · rw [hperm] at hl
      obtain rfl | hold := (mem_keys_insert _ _ _ _).mp hl
      · exact ⟨update.parent, update.auth, hdata⟩
      · exact absurd hold habsent
    · obtain ⟨rfl, rfl⟩ := hupdates hl
      obtain hroot | ⟨_, o, ho, rfl⟩ := parentId_ok hparent
      · -- an existing account has its owner permission
        obtain ⟨p, hp, _⟩ := PermissionTree.owner htree haccount
        rw [hroot.1] at hnew
        exact absurd (mem_keys_of_find? hp) hnew
      · refine ⟨mem_keys_of_find? ho,
          ⟨db.nextPermissionId, o.id, update.auth⟩, o, ?_, hkeep ho, ?_, rfl⟩
        · rw [hperm]
          exact find?_insert_self _ _ _
        · intro hzero
          have heq := (PermissionTree.id_eq_zero htree ho).mp hzero
          exact PermissionTree.account_ne_zero htree haccount (congrArg PermissionLevel.actor heq)

theorem DeleteauthEffect.permissionStep {remove : DeleteAuth} (htree' : db'.TreeShaped)
    (hdata : act.data = .deleteauth remove) (h : DeleteauthEffect db remove db') :
    PermissionStep db act db' := by
  obtain ⟨_, _, _, _, hp, hleaf, hcharge⟩ := h
  have hperm := (SameAuthorization.addRamUsage hcharge).permissions
  have hupdates : ∀ {l parent}, ¬ act.Updates l parent := by
    rintro l _ ⟨_, hl⟩
    rw [hdata] at hl
    cases hl
  refine ⟨htree', fun {l p} hl hkeep => ⟨p, ?_, rfl, rfl⟩, fun {l} hl => ?_,
    fun hl => absurd hl hupdates, fun {l} hl habsent => ?_, fun hl => absurd hl hupdates⟩
  · rw [hperm]
    refine (find?_erase_eq_some_iff _).mpr ⟨fun heq => ?_, hl⟩
    subst heq
    exact hkeep hdata
  · rw [Action.Deletes, hdata] at hl
    cases hl
    refine ⟨?_, _, hp, hleaf⟩
    rw [hperm]
    exact fun hmem => ((mem_keys_erase _ _ _).mp hmem).1 rfl
  · rw [hperm] at hl
    exact absurd ((mem_keys_erase _ _ _).mp hl).2 habsent

theorem PermissionStep.of_same (htree' : db'.TreeShaped) (hperm : db'.permissions = db.permissions)
    (hdeletes : ∀ l, ¬ act.Deletes l) (hupdates : ∀ l parent, ¬ act.Updates l parent) :
    PermissionStep db act db' where
  tree := htree'
  survives {_ p} hl _ := ⟨p, hperm ▸ hl, rfl, rfl⟩
  deleted hl := absurd hl (hdeletes _)
  updated hl := absurd hl (hupdates _ _)
  created hl habsent := absurd (hperm ▸ hl) habsent
  parent hl := absurd hl (hupdates _ _)

theorem LinkauthEffect.permissions {requirement : LinkAuth}
    (h : LinkauthEffect E db requirement db') : db'.permissions = db.permissions := by
  cases h with
  | relink => rfl
  | link _ _ _ hcharge => exact (SameAuthorization.addRamUsage hcharge).permissions

theorem UnlinkauthEffect.permissions {unlink : UnlinkAuth} (h : UnlinkauthEffect db unlink db') :
    db'.permissions = db.permissions := by
  obtain ⟨_, hrefund⟩ := h
  exact (SameAuthorization.addRamUsage hrefund).permissions

theorem permissionStep (htree : db.TreeShaped) (hkind : act.IsPermissionAction)
    (h : applyNative E act db = .ok db') : PermissionStep db act db' := by
  have hchange : AuthorizationChange (fun _ => True) db act.data db' :=
    (applyNative_effect h).authorizationChange trivial
  have htree' := htree.step hchange
  obtain ⟨_, _, _, data⟩ := act
  obtain ⟨haccount, hname⟩ := hkind
  simp only [mem_cons, not_mem_nil, or_false] at haccount hname
  subst haccount
  rw [applyNative] at h
  dsimp only at h
  obtain rfl | rfl | rfl | rfl := hname
  · cases data with
    | updateauth => exact (updateauth_effect h).permissionStep htree htree' rfl
    | _ => cases h
  · cases data with
    | deleteauth => exact (deleteauth_effect h).permissionStep htree' rfl
    | _ => cases h
  · cases data with
    | linkauth =>
      refine .of_same htree' (linkauth_effect h).permissions (fun _ hl => by cases hl) ?_
      rintro l parent ⟨auth, hl⟩
      cases hl
    | _ => cases h
  · cases data with
    | unlinkauth =>
      refine .of_same htree' (unlinkauth_effect h).permissions (fun _ hl => by cases hl) ?_
      rintro l _ ⟨_, hl⟩
      cases hl
    | _ => cases h

namespace PermissionStep

variable {l r : PermissionLevel}

theorem parent_keeps (h : PermissionStep db act db') (hl : ¬ act.Deletes l)
    (hparent : Parent db.permissions l r) : ¬ act.Deletes r ∧ Parent db'.permissions l r := by
  obtain ⟨p, o, hp, ho, hne, hid⟩ := hparent
  have hr : ¬ act.Deletes r := by
    intro hr
    obtain ⟨_, x, hx, hleaf⟩ := h.deleted hr
    cases ho.symm.trans hx
    exact hleaf p ((db.permissions.mem_values_iff p).mpr ⟨l, hp⟩) hid
  obtain ⟨p', hp', _, hparent⟩ := h.survives hp hl
  obtain ⟨o', ho', hoid, _⟩ := h.survives ho hr
  exact ⟨hr, p', o', hp', ho', hparent ▸ hne, hparent.trans (hid.trans hoid.symm)⟩

theorem parent_iff (htree : db.TreeShaped) (h : PermissionStep db act db')
    (hmem : l ∈ db.permissions.keys) (hl : ¬ act.Deletes l) :
    Parent db'.permissions l r ↔ Parent db.permissions l r := by
  refine ⟨fun hparent => ?_, fun hparent => (h.parent_keeps hl hparent).2⟩
  obtain ⟨p, hp⟩ := (db.permissions.mem_keys_iff l).mp hmem
  obtain ⟨_, hp', _, heq⟩ := h.survives hp hl
  have hne : p.parent ≠ 0 := by
    obtain ⟨x, _, hx, _, hne, _⟩ := hparent
    cases hp'.symm.trans hx
    exact heq ▸ hne
  obtain ⟨q, -, _, hold, _⟩ := PermissionTree.exists_parent htree hp hne
  rw [PermissionTree.parent_unique h.tree hparent (h.parent_keeps hl hold).2]
  exact hold

theorem atOrAbove_iff (htree : db.TreeShaped) (h : PermissionStep db act db')
    (hmem : l ∈ db.permissions.keys) (hl : ¬ act.Deletes l) :
    AtOrAbove db'.permissions r l ↔ AtOrAbove db.permissions r l := by
  constructor
  · intro habove
    induction habove using Relation.ReflTransGen.head_induction_on with
    | refl => exact .refl
    | head hstep _ ih =>
      have hold := (h.parent_iff htree hmem hl).mp hstep
      obtain ⟨_, o, _, ho, _⟩ := id hold
      refine .head hold (ih (mem_keys_of_find? ho) ?_)
      exact (h.parent_keeps hl hold).1
  · intro habove
    induction habove using Relation.ReflTransGen.head_induction_on with
    | refl => exact .refl
    | head hstep _ ih =>
      obtain ⟨_, o, _, ho, _⟩ := id hstep
      obtain ⟨hkeep, hnew⟩ := h.parent_keeps hl hstep
      exact .head hnew (ih (mem_keys_of_find? ho) hkeep)

end PermissionStep

end Steps

section Runs

variable {E : Environment} {db db₁ db₂ : ChainDb} {act : Action} {actions : List Action}
  {l r : PermissionLevel}

/-- Executing actions on permissions and links, the last one at the end. -/
inductive PermissionRun (db : ChainDb) : List Action → ChainDb → Prop
  | nil : PermissionRun db [] db
  | snoc {actions : List Action} {act : Action} {db₁ db₂ : ChainDb} :
      PermissionRun db actions db₁ → PermissionStep db₁ act db₂ →
        PermissionRun db (actions ++ [act]) db₂

namespace PermissionRun

theorem cons (hstep : PermissionStep db act db₁) (h : PermissionRun db₁ actions db₂) :
    PermissionRun db (act :: actions) db₂ := by
  induction h with
  | nil => exact .snoc .nil hstep
  | snoc _ hlast ih => exact .snoc ih hlast

variable (htree : db.TreeShaped)
include htree

theorem of_applyActions (hkinds : ∀ act ∈ actions, act.IsPermissionAction)
    (h : applyActions E actions db = .ok db₁) : PermissionRun db actions db₁ := by
  induction actions generalizing db with
  | nil =>
    cases h
    exact .nil
  | cons act _ ih =>
    simp only [applyActions, bind_eq_ok] at h
    obtain ⟨_, hact, hrest⟩ := h
    have hstep := permissionStep htree (hkinds act mem_cons_self) hact
    exact .cons hstep (ih hstep.tree (fun a ha => hkinds a (mem_cons_of_mem _ ha)) hrest)

theorem tree (h : PermissionRun db actions db₁) : db₁.TreeShaped := by
  cases h with
  | nil => exact htree
  | snoc _ hstep => exact hstep.tree

theorem keeps (h : PermissionRun db actions db₁) (hmem : l ∈ db.permissions.keys)
    (hkeep : ∀ act ∈ actions, ¬ act.Deletes l) : l ∈ db₁.permissions.keys ∧
      ∀ r, AtOrAbove db₁.permissions r l ↔ AtOrAbove db.permissions r l := by
  induction h with
  | nil => exact ⟨hmem, fun _ => .rfl⟩
  | snoc hrun hstep ih =>
    obtain ⟨hmem₁, habove⟩ := ih fun act hact => hkeep act (mem_append_left _ hact)
    have hlast := hkeep _ (mem_append_right _ mem_cons_self)
    obtain ⟨p, hp⟩ := (mem_keys_iff _ _).mp hmem₁
    obtain ⟨_, hp', _⟩ := hstep.survives hp hlast
    refine ⟨mem_keys_of_find? hp', fun r => ?_⟩
    exact (hstep.atOrAbove_iff (hrun.tree htree) hmem₁ hlast).trans (habove r)

end PermissionRun

def Removed (l : PermissionLevel) (actions : List Action) : Prop :=
  actions.foldl (fun removed act => act.Deletes l ∨ removed ∧ ∀ parent, ¬ act.Updates l parent) False

theorem removed_snoc : Removed l (actions ++ [act]) ↔
    act.Deletes l ∨ Removed l actions ∧ ∀ parent, ¬ act.Updates l parent := by
  rw [Removed, foldl_concat]
  rfl

theorem Removed.exists_deletes (h : Removed l actions) : ∃ act ∈ actions, act.Deletes l := by
  induction actions using reverseRecOn with
  | nil => exact h.elim
  | append_singleton _ act ih =>
    cases removed_snoc.mp h with
    | inl hact => exact ⟨act, mem_append_right _ mem_cons_self, hact⟩
    | inr hrest =>
      obtain ⟨a, ha, hdel⟩ := ih hrest.1
      exact ⟨a, mem_append_left _ ha, hdel⟩

/-- Whether a permission is gone after the actions can be read off them. -/
theorem PermissionRun.notMem_iff (h : PermissionRun db actions db₁)
    (hmem : l ∈ db.permissions.keys) : l ∉ db₁.permissions.keys ↔ Removed l actions := by
  induction h with
  | nil => exact iff_of_false (not_not.mpr hmem) id
  | @snoc _ _ db₁ _ hrun hstep ih =>
    rw [removed_snoc, ← ih]
    constructor
    · intro hgone
      by_cases hbefore : l ∈ db₁.permissions.keys
      · refine .inl (by_contra fun hkeep => hgone ?_)
        obtain ⟨p, hp⟩ := (mem_keys_iff _ _).mp hbefore
        obtain ⟨_, hp', _⟩ := hstep.survives hp hkeep
        exact mem_keys_of_find? hp'
      · exact .inr ⟨hbefore, fun parent hupdate => hgone (hstep.updated hupdate)⟩
    · rintro (hdel | ⟨hbefore, hupdates⟩) hafter
      · exact (hstep.deleted hdel).1 hafter
      · obtain ⟨parent, hupdate⟩ := hstep.created hafter hbefore
        exact hupdates parent hupdate

end Runs

variable {auth : PermissionLevel}

section Checked

variable {A : Arrangement} {E : Environment} {db : ChainDb} {actions : List Action} {act : Action}
  {delay : Int} {m m' : FlatMap PermissionLevel Int}

variable {u : Unit} {auths : List PermissionLevel} {message : String}

theorem requireSatisfies_ok (htree : db.TreeShaped) {minimum : PermissionLevel}
    (h : requireSatisfies db auth minimum message = .ok u) :
    minimum ∈ db.permissions.keys ∧ AtOrAbove db.permissions auth minimum := by
  simp only [requireSatisfies, bind_eq_ok, ChainDb.getPermission_ok] at h
  obtain ⟨q, ⟨_, hq⟩, p, ⟨_, hp⟩, h⟩ := h
  have hspec : ∃ b, satisfies db.permissions (auth, p) (minimum, q) = some b ∧
      (b = true ↔ auth.actor = minimum.actor ∧ AtOrAbove db.permissions auth minimum) :=
    PermissionTree.satisfiesWithin_spec htree hp hq (Nat.lt_succ_self _)
  obtain ⟨b, hb, hiff⟩ := hspec
  rw [hb] at h
  cases b with
  | false => cases h
  | true => exact ⟨mem_keys_of_find? hq, (hiff.mp rfl).2⟩

theorem singleAuthorization_ok
    (h : singleAuthorization auths message = .ok auth) : auths = [auth] := by
  cases auths with
  | nil => cases h
  | cons a rest =>
    cases rest with
    | nil =>
      cases h
      rfl
    | cons => cases h

theorem checkUpdateauthAuthorization_ok (htree : db.TreeShaped) {update : UpdateAuth}
    (h : checkUpdateauthAuthorization db update auths = .ok u) :
    ∃ r, ⟨update.account, r⟩ ∈ auths ∧ AtOrAbove db.permissions ⟨update.account, r⟩
      (if ⟨update.account, update.permission⟩ ∈ db.permissions.keys
        then ⟨update.account, update.permission⟩ else ⟨update.account, update.parent⟩) := by
  simp only [checkUpdateauthAuthorization, bind_eq_ok, eosAssert_eq_ok, ChainDb.findPermission_ok] at h
  obtain ⟨⟨_, r⟩, hauth, _, hactor, p, ⟨_, rfl⟩, h⟩ := h
  cases hactor
  refine ⟨r, singleAuthorization_ok hauth ▸ mem_cons_self, ?_⟩
  have habove := (requireSatisfies_ok htree h).2
  cases hp : db.permissions.find? ⟨update.account, update.permission⟩ with
  | none =>
    rw [if_neg ((db.permissions.find?_eq_none_iff _).mp hp)]
    simpa [hp] using habove
  | some =>
    rw [if_pos (mem_keys_of_find? hp)]
    simpa [hp] using habove

theorem checkDeleteauthAuthorization_ok (htree : db.TreeShaped) {del : DeleteAuth}
    (h : checkDeleteauthAuthorization db del auths = .ok u) :
    ⟨del.account, del.permission⟩ ∈ db.permissions.keys ∧ ∃ r, ⟨del.account, r⟩ ∈ auths ∧
      AtOrAbove db.permissions ⟨del.account, r⟩ ⟨del.account, del.permission⟩ := by
  simp only [checkDeleteauthAuthorization, bind_eq_ok, eosAssert_eq_ok] at h
  obtain ⟨⟨_, r⟩, hauth, _, hactor, h⟩ := h
  cases hactor
  obtain ⟨hmem, habove⟩ := requireSatisfies_ok htree h
  exact ⟨hmem, r, singleAuthorization_ok hauth ▸ mem_cons_self, habove⟩

theorem Action.IsPermissionAction.isSpecialCase (h : act.IsPermissionAction) :
    IsSpecialCase act.account act.name :=
  ⟨h.1, mem_append_left [CancelDelay.getName] h.2⟩

structure ActionChecked (db : ChainDb) (act : Action) : Prop where
  updateauth : ∀ {l parent}, act.Updates l parent → ∃ r, ⟨l.actor, r⟩ ∈ act.authorization ∧
    AtOrAbove db.permissions ⟨l.actor, r⟩
      (if l ∈ db.permissions.keys then l else ⟨l.actor, parent⟩)
  deleteauth : ∀ {l}, act.Deletes l → l ∈ db.permissions.keys ∧
    ∃ r, ⟨l.actor, r⟩ ∈ act.authorization ∧ AtOrAbove db.permissions ⟨l.actor, r⟩ l

theorem map_const_eq_ok {ε α β : Type} {x : Except ε α} {b c : β}
    (h : x.map (fun _ => b) = .ok c) : c = b ∧ ∃ a, x = .ok a := by
  cases x with
  | error => cases h
  | ok a =>
    cases h
    exact ⟨rfl, a, rfl⟩

theorem checkSpecialCase_ok (htree : db.TreeShaped) (hkind : act.IsPermissionAction) {d : Int}
    (h : checkSpecialCase E db act delay = .ok d) : d = delay ∧ ActionChecked db act := by
  obtain ⟨_, _, _, data⟩ := act
  have hname := hkind.2
  simp only [mem_cons, not_mem_nil, or_false] at hname
  rw [checkSpecialCase] at h
  dsimp only at h
  obtain rfl | rfl | rfl | rfl := hname
  · cases data with
    | updateauth =>
      obtain ⟨hd, u, hcheck⟩ := map_const_eq_ok h
      refine ⟨hd, ?_, nofun⟩
      rintro l parent ⟨auth, hl⟩
      cases hl
      exact checkUpdateauthAuthorization_ok htree hcheck
    | _ => cases h
  · cases data with
    | deleteauth =>
      obtain ⟨hd, u, hcheck⟩ := map_const_eq_ok h
      refine ⟨hd, ?_, ?_⟩
      · rintro l parent ⟨auth, hl⟩
        cases hl
      · intro l hl
        cases hl
        exact checkDeleteauthAuthorization_ok htree hcheck
    | _ => cases h
  · rw [if_neg (by decide +kernel), if_neg (by decide +kernel), if_pos rfl] at h
    cases data with
    | linkauth =>
      refine ⟨(map_const_eq_ok h).1, ?_, nofun⟩
      rintro l parent ⟨auth, hl⟩
      cases hl
    | _ => cases h
  · rw [if_neg (by decide +kernel), if_neg (by decide +kernel), if_neg (by decide +kernel),
      if_pos rfl] at h
    cases data with
    | unlinkauth =>
      refine ⟨(map_const_eq_ok h).1, ?_, nofun⟩
      rintro l _ ⟨_, hl⟩
      cases hl
    | _ => cases h

/-- The authorizations that are to be satisfied, all with the delay of the transaction. -/
structure Collects (m : FlatMap PermissionLevel Int) (auths : List PermissionLevel) (delay : Int)
    (m' : FlatMap PermissionLevel Int) : Prop where
  keeps : ∀ l ∈ m.keys, l ∈ m'.keys
  adds : ∀ l ∈ auths, l ∈ m'.keys
  delays : (∀ l d, m.find? l = some d → d = delay) → ∀ l d, m'.find? l = some d → d = delay

theorem collects_addDelay (m : FlatMap PermissionLevel Int) (auth : PermissionLevel) (delay : Int) :
    Collects m [auth] delay (addDelay m auth delay) := by
  have hinsert : Collects m [auth] delay (m.insert auth delay) := by
    refine ⟨fun l hl => ?_, fun l hl => ?_, fun hall l d hl => ?_⟩
    · exact (mem_keys_insert _ _ _ _).mpr (.inr hl)
    · exact (mem_keys_insert _ _ _ _).mpr (.inl (mem_singleton.mp hl))
    · rw [find?_insert] at hl
      split at hl
      · exact (Option.some.inj hl).symm
      · exact hall l d hl
  rw [addDelay]
  split
  · exact hinsert
  · rename_i hd
    split
    · exact hinsert
    · refine ⟨fun _ hl => hl, fun l hl => ?_, id⟩
      rw [mem_singleton.mp hl]
      exact mem_keys_of_find? hd

theorem Collects.append {auths' : List PermissionLevel} {m₁ : FlatMap PermissionLevel Int}
    (h : Collects m auths delay m₁) (h' : Collects m₁ auths' delay m') :
    Collects m (auths ++ auths') delay m' where
  keeps l hl := h'.keeps l (h.keeps l hl)
  adds l hl := (mem_append.mp hl).elim (fun hl => h'.keeps l (h.adds l hl)) (h'.adds l)
  delays hall := h'.delays (h.delays hall)

theorem collectDeclared_ok (hspecial : IsSpecialCase act.account act.name)
    (h : collectDeclared db [] act delay auths m = .ok m') : Collects m auths delay m' := by
  induction auths generalizing m with
  | nil =>
    cases h
    exact ⟨fun _ hl => hl, nofun, id⟩
  | cons auth _ ih =>
    simp only [collectDeclared, hspecial] at h
    exact (collects_addDelay m auth delay).append (ih h)

theorem collectPermissions_ok (htree : db.TreeShaped)
    (hkinds : ∀ act ∈ actions, act.IsPermissionAction)
    (h : collectPermissions E db [] delay actions m = .ok m') :
    (∀ act ∈ actions, ActionChecked db act) ∧
      Collects m (actions.flatMap Action.authorization) delay m' := by
  induction actions generalizing m with
  | nil =>
    cases h
    exact ⟨nofun, fun _ hl => hl, nofun, id⟩
  | cons act _ ih =>
    have hkind := hkinds act mem_cons_self
    simp only [collectPermissions, if_pos hkind.isSpecialCase, bind_eq_ok] at h
    obtain ⟨d, hcheck, _, hdeclared, hrest⟩ := h
    obtain ⟨rfl, hchecked⟩ := checkSpecialCase_ok htree hkind hcheck
    obtain ⟨hall, hcollects⟩ := ih (fun a ha => hkinds a (mem_cons_of_mem _ ha)) hrest
    refine ⟨fun a ha => ?_, ?_⟩
    · cases ha with
      | head => exact hchecked
      | tail _ ha => exact hall a ha
    · exact (collectDeclared_ok hkind.isSpecialCase hdeclared).append hcollects

theorem satisfyAll_ok {entries c c'}
    (hdelay : ∀ e ∈ entries, e.2 = c.providedDelay) (h : satisfyAll A entries c = .ok c') :
    ∀ e ∈ entries, ∃ usedKeys c₁, { c with usedKeys }.satisfied A e.1 = .ok (true, c₁) := by
  induction entries generalizing c with
  | nil => exact nofun
  | cons e _ ih =>
    obtain ⟨_, _⟩ := e
    cases hdelay _ mem_cons_self
    simp only [satisfyAll, AuthorityChecker.withDelay, bind_eq_ok, eosAssert_eq_ok] at h
    obtain ⟨⟨r, _⟩, ⟨⟨_, _⟩, hsatisfied, hok⟩, _, htrue, hrest⟩ := h
    cases hok
    cases htrue
    have hused := hsatisfied
    simp only [AuthorityChecker.satisfied, bind_eq_ok] at hused
    obtain ⟨⟨t, s⟩, _, hused⟩ := hused
    simp only [Except.ok.injEq, Prod.mk.injEq] at hused
    obtain ⟨_, rfl⟩ := hused
    intro e he
    cases he with
    | head => exact ⟨c.usedKeys, _, hsatisfied⟩
    | tail _ he =>
      exact ih (c := { c with usedKeys := s.usedKeys })
        (fun e he => hdelay e (mem_cons_of_mem _ he)) hrest e he

end Checked

section Control

variable (A : Arrangement) (E : Environment) (db : ChainDb) (providedKeys : List PublicKeyType)
  (providedPermissions : List PermissionLevel) (providedDelay : Int) (actions : List Action)

def Declared (auth : PermissionLevel) : Prop := ∃ act ∈ actions, auth ∈ act.authorization

/-- The transaction declares the authorization, and the check finds it satisfied. The marks of
the keys are those left by the authorizations checked before. -/
def DeclaredSatisfied (auth : PermissionLevel) : Prop :=
  Declared actions auth ∧ ∃ usedKeys c,
    { authorizationChecker E db providedKeys providedPermissions providedDelay with
      usedKeys }.satisfied A auth = .ok (true, c)

/-- Some authority the transaction has shown is at or above the permission in the tree. -/
def Held (permissions : PermissionIndex) (l : PermissionLevel) : Prop :=
  ∃ r, DeclaredSatisfied A E db providedKeys providedPermissions providedDelay actions ⟨l.actor, r⟩ ∧
    AtOrAbove permissions ⟨l.actor, r⟩ l

/-- Every change to a permission is under an authority the transaction has shown, in the tree
as it is when the change is made. -/
def Controlled : Prop :=
  ∀ pre act post, actions = pre ++ act :: post → ∀ db₁, applyActions E pre db = .ok db₁ →
    (∀ l parent, act.Updates l parent → l ∉ db₁.permissions.keys →
      Held A E db providedKeys providedPermissions providedDelay actions db₁.permissions
        ⟨l.actor, parent⟩) ∧
    (∀ l parent, act.Updates l parent → l ∈ db₁.permissions.keys →
      Held A E db providedKeys providedPermissions providedDelay actions db₁.permissions l) ∧
    ∀ l, act.Deletes l →
      Held A E db providedKeys providedPermissions providedDelay actions db₁.permissions l

/-- A permission that the transaction has removed is created again only under a parent that
some declared authorization is at or above before the transaction, or that the transaction has
itself created. -/
def RecreatesUnderDeclared : Prop :=
  ∀ pre act post, actions = pre ++ act :: post → ∀ l parent, act.Updates l parent → Removed l pre →
    ⟨l.actor, parent⟩ ∈ db.permissions.keys → (∀ a ∈ pre, ¬ a.Deletes ⟨l.actor, parent⟩) →
      ∃ r, Declared actions ⟨l.actor, r⟩ ∧ AtOrAbove db.permissions ⟨l.actor, r⟩ ⟨l.actor, parent⟩

variable {A E db providedKeys providedPermissions providedDelay actions}
  {pre post : List Action} {act : Action} {db₁ db₂ : ChainDb}

theorem checkAuthorization_ok (htree : db.TreeShaped)
    (hkinds : ∀ act ∈ actions, act.IsPermissionAction) {allowUnusedKeys : Bool} {u : Unit}
    (h : checkAuthorization A E db [] providedKeys providedPermissions providedDelay actions
      allowUnusedKeys = .ok u) :
    (∀ act ∈ actions, ActionChecked db act) ∧ ∀ auth, Declared actions auth →
      DeclaredSatisfied A E db providedKeys providedPermissions providedDelay actions auth := by
  simp only [checkAuthorization, bind_eq_ok] at h
  obtain ⟨m, hcollect, c, hsatisfy, _⟩ := h
  obtain ⟨hchecked, hcollects⟩ := collectPermissions_ok htree hkinds hcollect
  refine ⟨hchecked, fun auth hdeclared => ⟨hdeclared, ?_⟩⟩
  have hmem : auth ∈ m.keys := hcollects.adds auth (mem_flatMap.mpr hdeclared)
  obtain ⟨d, hd⟩ := (m.mem_keys_iff auth).mp hmem
  have hdelays := hcollects.delays fun _ _ hd => absurd hd (Option.some_ne_none _).symm
  refine satisfyAll_ok (fun e he => ?_) hsatisfy (auth, d) ((m.mem_entries_iff _ _).mpr hd)
  exact hdelays e.1 e.2 ((m.mem_entries_iff _ _).mp he)

def NewHeld (db : ChainDb) (actions pre : List Action) (db₁ : ChainDb) : Prop :=
  ∀ l ∈ db₁.permissions.keys, l ∉ db.permissions.keys ∨ (∃ a ∈ pre, a.Deletes l) →
    ∃ r, Declared actions ⟨l.actor, r⟩ ∧ AtOrAbove db₁.permissions ⟨l.actor, r⟩ l

theorem parent_held (htree : db.TreeShaped) (hchecked : ∀ act ∈ actions, ActionChecked db act)
    (hrecreates : RecreatesUnderDeclared db actions) (hsplit : actions = pre ++ act :: post)
    (hrun : PermissionRun db pre db₁) (hstep : PermissionStep db₁ act db₂)
    (hnew : NewHeld db actions pre db₁) {l : PermissionLevel} {parent : PermissionName}
    (hupdate : act.Updates l parent) (habsent : l ∉ db₁.permissions.keys) :
    ∃ r, Declared actions ⟨l.actor, r⟩ ∧
      AtOrAbove db₁.permissions ⟨l.actor, r⟩ ⟨l.actor, parent⟩ := by
  have hmem : act ∈ actions := hsplit ▸ mem_append_right _ mem_cons_self
  obtain ⟨hparent, _⟩ := hstep.parent hupdate habsent
  by_cases hold : ⟨l.actor, parent⟩ ∉ db.permissions.keys ∨
      ∃ a ∈ pre, a.Deletes ⟨l.actor, parent⟩
  · exact hnew _ hparent hold
  obtain ⟨hbefore, hkept⟩ := not_or.mp hold
  have hbefore := not_not.mp hbefore
  have hkept : ∀ a ∈ pre, ¬ a.Deletes ⟨l.actor, parent⟩ := fun a ha hdel => hkept ⟨a, ha, hdel⟩
  have hsame := (hrun.keeps htree hbefore hkept).2
  by_cases hl : l ∈ db.permissions.keys
  · obtain ⟨r, hdeclared, habove⟩ := hrecreates pre act post hsplit l parent hupdate
      ((hrun.notMem_iff hl).mp habsent) hbefore hkept
    exact ⟨r, hdeclared, (hsame _).mpr habove⟩
  · obtain ⟨r, hdeclared, habove⟩ := (hchecked act hmem).updateauth hupdate
    rw [if_neg hl] at habove
    exact ⟨r, ⟨act, hmem, hdeclared⟩, (hsame _).mpr habove⟩

theorem newHeld_of_run (htree : db.TreeShaped) (hchecked : ∀ act ∈ actions, ActionChecked db act)
    (hrecreates : RecreatesUnderDeclared db actions) (hrun : PermissionRun db pre db₁)
    (hsplit : actions = pre ++ post) : NewHeld db actions pre db₁ := by
  induction hrun generalizing post with
  | nil => exact fun l hl hnew => absurd hl (hnew.resolve_right nofun)
  | @snoc pre act db₁ _ hrun hstep ih =>
    rw [append_assoc] at hsplit
    have hheld := ih hsplit
    have htree₁ := hrun.tree htree
    intro l hl hnew
    by_cases hbefore : l ∈ db₁.permissions.keys
    · have hkeep : ¬ act.Deletes l := fun hdel => (hstep.deleted hdel).1 hl
      have hnew₁ : l ∉ db.permissions.keys ∨ ∃ a ∈ pre, a.Deletes l := by
        refine hnew.imp_right fun hdeleted => ?_
        obtain ⟨a, ha, hdel⟩ := hdeleted
        cases mem_append.mp ha with
        | inl ha => exact ⟨a, ha, hdel⟩
        | inr ha => exact absurd (mem_singleton.mp ha ▸ hdel) hkeep
      obtain ⟨r, hdeclared, habove⟩ := hheld l hbefore hnew₁
      exact ⟨r, hdeclared, (hstep.atOrAbove_iff htree₁ hbefore hkeep).mpr habove⟩
    · obtain ⟨parent, hupdate⟩ := hstep.created hl hbefore
      obtain ⟨r, hdeclared, habove⟩ := parent_held htree hchecked hrecreates hsplit hrun hstep hheld
        hupdate hbefore
      obtain ⟨hparent, hlink⟩ := hstep.parent hupdate hbefore
      have hkeep : ¬ act.Deletes ⟨l.actor, parent⟩ := by
        obtain ⟨_, hdata⟩ := hupdate
        rw [Action.Deletes, hdata]
        exact nofun
      exact ⟨r, hdeclared, .head hlink ((hstep.atOrAbove_iff htree₁ hparent hkeep).mpr habove)⟩

theorem existing_held (htree : db.TreeShaped) (hrun : PermissionRun db pre db₁)
    (hnew : NewHeld db actions pre db₁) {l : PermissionLevel} (hl : l ∈ db₁.permissions.keys)
    (hcheck : l ∈ db.permissions.keys → ∃ r, Declared actions ⟨l.actor, r⟩ ∧
      AtOrAbove db.permissions ⟨l.actor, r⟩ l) :
    ∃ r, Declared actions ⟨l.actor, r⟩ ∧ AtOrAbove db₁.permissions ⟨l.actor, r⟩ l := by
  by_cases hold : l ∉ db.permissions.keys ∨ ∃ a ∈ pre, a.Deletes l
  · exact hnew l hl hold
  · obtain ⟨hbefore, hkept⟩ := not_or.mp hold
    obtain ⟨r, hdeclared, habove⟩ := hcheck (not_not.mp hbefore)
    have hsame := (hrun.keeps htree (not_not.mp hbefore) fun a ha hdel => hkept ⟨a, ha, hdel⟩).2
    exact ⟨r, hdeclared, (hsame _).mpr habove⟩

theorem applyActions_split {E db db' pre post act db₁} (h : applyActions E (pre ++ act :: post) db = .ok db')
    (h₁ : applyActions E pre db = .ok db₁) : ∃ db₂, applyNative E act db₁ = .ok db₂ := by
  rw [applyActions_append, bind_eq_ok] at h
  obtain ⟨_, h₁', h⟩ := h
  cases h₁'.symm.trans h₁
  simp only [applyActions, bind_eq_ok] at h
  obtain ⟨db₂, hact, _⟩ := h
  exact ⟨db₂, hact⟩

/-- For a transaction that passes the check and executes, its changes to permissions are
controlled exactly when it creates no permission again under a parent that nothing it declares
is at or above. -/
theorem controlled_iff {allowed : Environment → Prop} (hreach : Reachable allowed db)
    (hkinds : ∀ act ∈ actions, act.IsPermissionAction) {allowUnusedKeys : Bool}
    (hcheck : checkAuthorization A E db [] providedKeys providedPermissions providedDelay actions
      allowUnusedKeys = .ok ()) {db' : ChainDb} (hrun : applyActions E actions db = .ok db') :
    Controlled A E db providedKeys providedPermissions providedDelay actions ↔
      RecreatesUnderDeclared db actions := by
  have htree := hreach.treeShaped
  obtain ⟨hchecked, hsatisfied⟩ := checkAuthorization_ok htree hkinds hcheck
  have hprefix : ∀ {pre act post db₁}, actions = pre ++ act :: post →
      applyActions E pre db = .ok db₁ →
        PermissionRun db pre db₁ ∧ ∃ db₂, PermissionStep db₁ act db₂ := by
    intro pre act post db₁ hsplit h₁
    have hpre := PermissionRun.of_applyActions htree
      (fun a ha => hkinds a (hsplit ▸ mem_append_left _ ha)) h₁
    obtain ⟨db₂, hact⟩ := applyActions_split (hsplit ▸ hrun) h₁
    refine ⟨hpre, db₂, permissionStep (hpre.tree htree) ?_ hact⟩
    exact hkinds act (hsplit ▸ mem_append_right _ mem_cons_self)
  constructor
  · -- the creation is controlled, and the parent is where it was before the transaction
    intro hcontrolled pre act post hsplit l parent hupdate hremoved hparent hkept
    have hpre := hrun
    rw [hsplit, applyActions_append, bind_eq_ok] at hpre
    obtain ⟨db₁, h₁, _⟩ := hpre
    obtain ⟨hrun₁, _⟩ := hprefix hsplit h₁
    obtain ⟨d, hd, hdel⟩ := hremoved.exists_deletes
    have hl := ((hchecked d (hsplit ▸ mem_append_left _ hd)).deleteauth hdel).1
    have habsent := (hrun₁.notMem_iff hl).mpr hremoved
    obtain ⟨r, hheld, habove⟩ := (hcontrolled pre act post hsplit db₁ h₁).1 l parent hupdate habsent
    exact ⟨r, hheld.1, ((hrun₁.keeps htree hparent hkept).2 _).mp habove⟩
  · intro hrecreates _ act _ hsplit db₁ h₁
    obtain ⟨hrun₁, _, hstep⟩ := hprefix hsplit h₁
    have hnew := newHeld_of_run htree hchecked hrecreates hrun₁ hsplit
    have hmem : act ∈ actions := hsplit ▸ mem_append_right _ mem_cons_self
    have hheld : ∀ {l}, (∃ r, Declared actions ⟨l.actor, r⟩ ∧
        AtOrAbove db₁.permissions ⟨l.actor, r⟩ l) →
          Held A E db providedKeys providedPermissions providedDelay actions db₁.permissions l := by
      rintro l ⟨r, hdeclared, habove⟩
      exact ⟨r, hsatisfied _ hdeclared, habove⟩
    refine ⟨fun l parent hupdate habsent => ?_, fun l parent hupdate hl => ?_, fun l hdel => ?_⟩
    · have hparent := parent_held htree hchecked hrecreates hsplit hrun₁ hstep hnew hupdate habsent
      exact hheld hparent
    · refine hheld (existing_held htree hrun₁ hnew hl fun hbefore => ?_)
      obtain ⟨r, hdeclared, habove⟩ := (hchecked act hmem).updateauth hupdate
      rw [if_pos hbefore] at habove
      exact ⟨r, ⟨act, hmem, hdeclared⟩, habove⟩
    · obtain ⟨_, p, hp, _⟩ := hstep.deleted hdel
      refine hheld (existing_held htree hrun₁ hnew (mem_keys_of_find? hp) fun _ => ?_)
      obtain ⟨_, r, hdeclared, habove⟩ := (hchecked act hmem).deleteauth hdel
      exact ⟨r, ⟨act, hmem, hdeclared⟩, habove⟩

end Control

section Sample

def sampleDeleteauth (declared : PermissionName) : Action where
  account := config.systemAccountName
  name := DeleteAuth.getName
  authorization := [⟨sampleAccount, declared⟩]
  data := .deleteauth ⟨sampleAccount, samplePermission⟩

/-- A permission is removed and created again, both under one authority. -/
def recreation (declared parent : PermissionName) : List Action :=
  [sampleDeleteauth declared, sampleUpdateauth declared parent]

theorem recreation_kinds (declared parent : PermissionName) :
    ∀ act ∈ recreation declared parent, act.IsPermissionAction := by
  intro _ hact
  simp only [recreation, mem_cons, not_mem_nil, or_false] at hact
  cases hact with
  | inl heq =>
    rw [heq]
    exact ⟨rfl, mem_cons_of_mem _ mem_cons_self⟩
  | inr heq =>
    rw [heq]
    exact ⟨rfl, mem_cons_self⟩

theorem declared_recreation {declared parent : PermissionName} :
    Declared (recreation declared parent) auth ↔ auth = ⟨sampleAccount, declared⟩ := by
  simp only [Declared, recreation, mem_cons, not_mem_nil, or_false, exists_eq_or_imp,
    exists_eq_left, sampleDeleteauth, sampleUpdateauth, or_self]

/-- A permission moves from under the active permission to under the owner permission, with no
more authority than its own key. -/
theorem recreation_uncontrolled : ∃ db db', sampleChain = .ok db ∧
    checkAuthorization metaPermissionSet sampleEnvironment db [] [[3]] [] 0
      (recreation samplePermission config.ownerName) false = .ok () ∧
    applyActions sampleEnvironment (recreation samplePermission config.ownerName) db = .ok db' ∧
    ¬ Controlled metaPermissionSet sampleEnvironment db [[3]] [] 0
      (recreation samplePermission config.ownerName) := by
  obtain ⟨db, hdb, ⟨_, hcheck⟩, ⟨db', hrun⟩, db₁, hdel, hgone, hroot⟩ : ∃ db, sampleChain = .ok db ∧
      (∃ u, checkAuthorization metaPermissionSet sampleEnvironment db [] [[3]] [] 0
        (recreation samplePermission config.ownerName) false = .ok u) ∧
      (∃ db', applyActions sampleEnvironment (recreation samplePermission config.ownerName) db =
        .ok db') ∧
      ∃ db₁, applyActions sampleEnvironment [sampleDeleteauth samplePermission] db = .ok db₁ ∧
        db₁.permissions.find? ⟨sampleAccount, samplePermission⟩ = none ∧
          (db₁.permissions.find? ⟨sampleAccount, config.ownerName⟩).map PermissionObject.parent =
            some 0 := by
    decide +kernel
  refine ⟨db, db', hdb, hcheck, hrun, fun hcontrolled => ?_⟩
  -- the second action creates the permission, with the owner permission as its parent
  have hcreation := (hcontrolled [sampleDeleteauth samplePermission] _ [] rfl db₁ hdel).1
    ⟨sampleAccount, samplePermission⟩ config.ownerName ⟨_, rfl⟩
    ((db₁.permissions.find?_eq_none_iff _).mp hgone)
  obtain ⟨r, ⟨hdeclared, _⟩, habove⟩ := hcreation
  have hne : (⟨sampleAccount, config.ownerName⟩ : PermissionLevel) ≠ ⟨sampleAccount, r⟩ := by
    rw [declared_recreation.mp hdeclared]
    decide +kernel
  obtain ⟨_, ⟨p, _, hp, _, hparent, _⟩, _⟩ := (atOrAbove_iff_of_ne hne).mp habove
  rw [hp] at hroot
  exact hparent (Option.some.inj hroot)

/-- Under the parent it had, and with the authority of that parent, a permission can be created
again. -/
theorem controlled_recreation : ∃ db, sampleChain = .ok db ∧
    Controlled metaPermissionSet sampleEnvironment db [[2]] [] 0
      (recreation config.activeName config.activeName) := by
  obtain ⟨db, hdb, ⟨_, hcheck⟩, _, hrun⟩ : ∃ db, sampleChain = .ok db ∧
      (∃ u, checkAuthorization metaPermissionSet sampleEnvironment db [] [[2]] [] 0
        (recreation config.activeName config.activeName) false = .ok u) ∧
      ∃ db', applyActions sampleEnvironment (recreation config.activeName config.activeName) db =
        .ok db' := by
    decide +kernel
  have hreach : Reachable (fun _ => True) db := reachable_sampleChain trivial hdb
  refine ⟨db, hdb, (controlled_iff hreach (recreation_kinds _ _) hcheck hrun).mpr ?_⟩
  rintro _ act post hsplit ⟨_, _⟩ _ hupdate _ _ _
  have hact : act ∈ recreation config.activeName config.activeName :=
    hsplit ▸ mem_append_right _ mem_cons_self
  obtain ⟨_, hdata⟩ := hupdate
  simp only [recreation, mem_cons, not_mem_nil, or_false] at hact
  cases hact with
  | inl heq =>
    rw [heq] at hdata
    cases hdata
  | inr heq =>
    rw [heq] at hdata
    cases hdata
    exact ⟨config.activeName, declared_recreation.mpr rfl, .refl⟩

end Sample

end DreamChain
