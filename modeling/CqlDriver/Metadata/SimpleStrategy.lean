import CqlDriver.Metadata.Replication

/-! # Placement by `SimpleStrategy` (`lib/metadata/schema-parser.js`)

The replicas of a token are the first distinct owners on the way around the ring.  The code bounds their
number by the number of tokens; there are not more owners than that, so that the bound by the number of
distinct hosts is the same (`simpleStrategy_replicas`). -/

namespace CqlDriver.Metadata

/-! ### The first occurrences in a list -/

section eraseDups

variable {α : Type} [BEq α] [LawfulBEq α]

theorem eraseDups_concat_of_mem {l : List α} {a : α} (h : a ∈ l.eraseDups) :
    (l ++ [a]).eraseDups = l.eraseDups := by
  rw [List.mem_eraseDups] at h
  rw [List.eraseDups_append]
  simp [h, List.removeAll]

theorem eraseDups_concat_of_not_mem {l : List α} {a : α} (h : a ∉ l.eraseDups) :
    (l ++ [a]).eraseDups = l.eraseDups ++ [a] := by
  rw [List.mem_eraseDups] at h
  rw [List.eraseDups_append]
  simp [h, List.removeAll, List.eraseDups_cons]

theorem nodup_eraseDups (l : List α) : l.eraseDups.Nodup := by
  induction l using List.reverseRecOn with
  | nil => exact List.nodup_nil
  | append_singleton l a ih =>
      by_cases h : a ∈ l.eraseDups
      · rw [eraseDups_concat_of_mem h]
        exact ih
      · rw [eraseDups_concat_of_not_mem h, ← List.concat_eq_append]
        exact ih.concat h

theorem length_eraseDups [DecidableEq α] (l : List α) : l.eraseDups.length = l.toFinset.card := by
  rw [← List.toFinset_card_of_nodup (nodup_eraseDups l)]
  congr 1
  ext a
  simp

end eraseDups

/-! ### The loop -/

/-- The loop adds the first occurrences until there are `rf`. -/
theorem simpleReplicas_eq {rf : ℕ} {walk : List (Option Host)} : ∀ {seen : List (Option Host)},
    seen.eraseDups.length ≤ rf →
      simpleReplicas rf walk seen.eraseDups = (seen ++ walk).eraseDups.take rf := by
  induction walk with
  | nil =>
      intro seen hle
      rw [simpleReplicas, List.append_nil, List.take_of_length_le hle]
  | cons next walk ih =>
      intro seen hle
      rw [simpleReplicas]
      by_cases hlt : seen.eraseDups.length < rf
      · have hnext := @ih (seen ++ [next])
        rw [List.append_assoc, List.singleton_append] at hnext
        rw [if_pos hlt]
        by_cases hmem : next ∈ seen.eraseDups
        · rw [eraseDups_concat_of_mem hmem] at hnext
          rw [if_pos hmem]
          exact hnext hle
        · rw [eraseDups_concat_of_not_mem hmem, List.length_append, List.length_singleton] at hnext
          rw [if_neg hmem]
          exact hnext hlt
      · have hrf : seen.eraseDups.length = rf := by omega
        rw [if_neg hlt, List.eraseDups_append, ← hrf, List.take_left]

theorem rotate_eq_cons {ring : List String} {i : ℕ} {key : String} (hkey : ring[i]? = some key) :
    ring.rotate i = key :: (ring.rotate i).tail := by
  obtain ⟨hi, rfl⟩ := List.getElem?_eq_some_iff.1 hkey
  rw [List.rotate_eq_drop_append_take hi.le, List.drop_eq_getElem_cons hi]
  rfl

/-- The entry of a token, with the bound of the code. -/
theorem tokenSimpleStrategy_eq {ring : List String} (hnodup : ring.Nodup) {rf : ℕ} (hrf : 1 ≤ rf)
    (primaryReplicas : String → Option Host) {i : ℕ} {key : String} (hkey : ring[i]? = some key) :
    tokenSimpleStrategy rf ring primaryReplicas key =
      some (((ring.rotate i).map primaryReplicas).eraseDups.take (min rf ring.length)) := by
  have hpos : 1 ≤ ring.length := by
    obtain ⟨hi, -⟩ := List.getElem?_eq_some_iff.1 hkey
    omega
  have hwalk : (ring.rotate i).map primaryReplicas =
      [primaryReplicas key] ++ (walkFrom ring primaryReplicas i).tail := by
    rw [walkFrom, rotate_eq_cons hkey]
    rfl
  have hloop := @simpleReplicas_eq (min rf ring.length) (walkFrom ring primaryReplicas i).tail
    [primaryReplicas key] (by simpa [List.eraseDups_cons] using ⟨hrf, hpos⟩)
  rw [← hwalk] at hloop
  rw [← hloop]
  unfold tokenSimpleStrategy
  refine tableOf_eq_some ?_ (List.mem_map.2 ⟨(key, i), List.mem_zipIdx_iff_getElem?.2 hkey, ?_⟩)
  · rw [map_fst_zipIdx ring fun x =>
      simpleReplicas (min rf ring.length) (walkFrom ring primaryReplicas x.2).tail [primaryReplicas x.1]]
    exact hnodup
  · simp [List.eraseDups_cons]

/-- For a replication factor of two or more, the replicas of a token are the first distinct owners that a walk
around the ring from this token meets, in this order: as many as the factor says, or all. -/
theorem simpleStrategy_replicas {strategy : String} {options : StrategyOptions} {rf : ℤ}
    (hstrategy : endsWith strategy "SimpleStrategy" = true)
    (hfactor : options.number "replication_factor" = some rf) (hrf : 2 ≤ rf) {ring : List String}
    (hnodup : ring.Nodup) (primaryReplicas : String → Option Host) (datacenters : String → Option Datacenter) :
    ∃ table, tokenToReplica strategy options ring primaryReplicas datacenters = .ok table ∧
      ∀ (i : ℕ) (key : String), ring[i]? = some key → ∃ replicas, table key = some replicas ∧
        replicas = ((ring.rotate i).map primaryReplicas).eraseDups.take
          (min rf.toNat (ring.map primaryReplicas).toFinset.card) ∧
        replicas.length = min rf.toNat (ring.map primaryReplicas).toFinset.card ∧
        replicas.head? = some (primaryReplicas key) := by
  have hone : decide (1 < rf) = true := decide_eq_true (by omega)
  refine ⟨tokenSimpleStrategy rf.toNat ring primaryReplicas, ?_, fun i key hkey => ?_⟩
  · unfold tokenToReplica
    simp only [hfactor, hstrategy, Option.getD_some, hone, Bool.and_self, if_true]
  · have hcard : ((ring.rotate i).map primaryReplicas).eraseDups.length =
        (ring.map primaryReplicas).toFinset.card := by
      rw [length_eraseDups]
      congr 1
      ext x
      simp
    have hle : (ring.map primaryReplicas).toFinset.card ≤ ring.length := by
      have := List.toFinset_card_le (ring.map primaryReplicas)
      rwa [List.length_map] at this
    have hpos : 0 < (ring.map primaryReplicas).toFinset.card := by
      rw [← hcard, rotate_eq_cons hkey, List.map_cons, List.eraseDups_cons]
      simp
    refine ⟨_, tokenSimpleStrategy_eq hnodup (by omega) primaryReplicas hkey, ?_, ?_, ?_⟩
    · rw [List.take_eq_take_iff, hcard]
      omega
    · rw [List.length_take, hcard]
      omega
    · rw [rotate_eq_cons hkey, List.map_cons, List.eraseDups_cons]
      have hbound : min rf.toNat ring.length ≠ 0 := by omega
      simp [List.head?_take, hbound]

/-- Four tokens of two hosts; the neighbours `10` and `20` have the same owner. -/
def vnodeRing : List String := ["10", "20", "30", "40"]

def vnodeOwner (key : String) : Option Host :=
  if key = "30" then some ⟨"10.0.0.2", none, none, none⟩ else some ⟨"10.0.0.1", none, none, none⟩

theorem simpleStrategy_replicas_vnodes :
    ∃ table, tokenToReplica "org.apache.cassandra.locator.SimpleStrategy" [("replication_factor", "3")] vnodeRing
        vnodeOwner (fun _ => none) = .ok table ∧
      ∀ (i : ℕ) (key : String), vnodeRing[i]? = some key → ∃ replicas, table key = some replicas ∧
        replicas = ((vnodeRing.rotate i).map vnodeOwner).eraseDups.take
          (min (3 : ℤ).toNat (vnodeRing.map vnodeOwner).toFinset.card) ∧
        replicas.length = min (3 : ℤ).toNat (vnodeRing.map vnodeOwner).toFinset.card ∧
        replicas.head? = some (vnodeOwner key) := by
  have hstrategy : endsWith "org.apache.cassandra.locator.SimpleStrategy" "SimpleStrategy" = true := by
    decide +kernel
  have hfactor : StrategyOptions.number [("replication_factor", "3")] "replication_factor" = some 3 := by
    decide +kernel
  exact simpleStrategy_replicas hstrategy hfactor (by decide) (by decide) vnodeOwner fun _ => none

end CqlDriver.Metadata
