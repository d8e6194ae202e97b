import NTrade.Lib.Grouping
import Mathlib.Algebra.Order.Group.Defs
import Mathlib.Data.Int.Notation

/-! Option contracts, and what they are worth when they settle. -/
namespace NTrade.Domain.Derivatives

open NTrade.Lib.LastWrite NTrade.Lib.Grouping

inductive OptionType where
  | CE
  | PE
  deriving DecidableEq

structure OptionContract (K : Type*) where
  strike : K
  optionType : OptionType
  oi : Int
  deriving DecidableEq

variable {K : Type*} [LinearOrder K]

def intrinsicValue [AddCommGroup K] (optionType : OptionType) (spot strike : K) : K :=
  if optionType = .CE then max (spot - strike) 0 else max (strike - spot) 0

def strikes (options : List (OptionContract K)) : List K := sortBy id (uniques (options.map OptionContract.strike))

variable {options : List (OptionContract K)}

theorem mem_strikes {k : K} : k ∈ strikes options ↔ ∃ o ∈ options, o.strike = k := by
  rw [strikes, (perm_sortBy id _).mem_iff, mem_uniques, List.mem_map]

theorem strikes_increasing : (strikes options).Pairwise (· < ·) := by
  have hnodup : (strikes options).Pairwise (· ≠ ·) := (perm_sortBy id _).nodup_iff.mpr (nodup_uniques _)
  exact (hnodup.and (pairwise_sortBy id _)).imp fun h => lt_of_le_of_ne h.2 h.1

end NTrade.Domain.Derivatives
