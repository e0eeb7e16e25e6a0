import PackagePlanner.Main
import PackagePlanner.Proofs.Catalog
import PackagePlanner.Proofs.Catalog.Lookup
import PackagePlanner.Proofs.Catalog.Newest
import PackagePlanner.Proofs.Catalog.Table
import PackagePlanner.Proofs.Catalog.Order
import PackagePlanner.Proofs.Graph.Target
import PackagePlanner.Proofs.Graph.InstallOrder
import PackagePlanner.Proofs.Graph.Index
import PackagePlanner.Proofs.Resolution.Step
import PackagePlanner.Proofs.Resolution.Conflict
import PackagePlanner.Proofs.Planner.Change
import PackagePlanner.Proofs.Planner.Closure
import PackagePlanner.Proofs.Planner.Dependents
import PackagePlanner.Proofs.Planner.History
import PackagePlanner.Proofs.Planner.Order
import PackagePlanner.Proofs.Planner.Connected
import PackagePlanner.Proofs.Planner.SideBySide
import PackagePlanner.Proofs.Planner.Relisted
import PackagePlanner.Proofs.Planner.Undo
import PackagePlanner.Proofs.Planner.Forced
import PackagePlanner.Proofs.Resolution.Unchanged
import PackagePlanner.Proofs.Planner.Satisfied
import PackagePlanner.Proofs.Planner.Termination
import PackagePlanner.Proofs.Planner.Requirers
import PackagePlanner.Proofs.Planner.Upgrade
import PackagePlanner.Proofs.Planner.Replacement
import PackagePlanner.Proofs.Planner.Summary
import PackagePlanner.Proofs.Planner.States
import PackagePlanner.Proofs.Planner.Classified
import PackagePlanner.Proofs.Planner.Loss
import PackagePlanner.Proofs.Planner.Isolation
import PackagePlanner.Proofs.Planner.Course
import PackagePlanner.Proofs.Constraint
import PackagePlanner.Proofs.Constraint.Overlap
import PackagePlanner.Proofs.Manifest
import PackagePlanner.Proofs.Version.Grammar
