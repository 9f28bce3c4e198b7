import ModuleAudit.Round
import ModuleAudit.Auditor
import ModuleAudit.Draft
import ModuleAudit.StaticCandidate
import ModuleAudit.TypeDef.Parts
import ModuleAudit.Proofs.BaseChain
import ModuleAudit.Proofs.Nesting
import ModuleAudit.Proofs.StaticCandidate
import ModuleAudit.Proofs.Draft
import ModuleAudit.Proofs.MemberTokens
import ModuleAudit.Proofs.Wellformed
import ModuleAudit.Proofs.Registry
import ModuleAudit.Proofs.Growth
import ModuleAudit.Proofs.Course
import ModuleAudit.Proofs.Interleaving
import ModuleAudit.Proofs.Round
import ModuleAudit.Proofs.Reporting
import ModuleAudit.Proofs.Stream
import ModuleAudit.Proofs.Recital
import ModuleAudit.Proofs.Termination
import ModuleAudit.Proofs.History
import ModuleAudit.Proofs.Invariant
import ModuleAudit.Proofs.Permanence
import ModuleAudit.Proofs.Loading
import ModuleAudit.Proofs.Accounts
import ModuleAudit.Proofs.Skipping
import ModuleAudit.Proofs.AnyOrder
import ModuleAudit.Proofs.Summary
import ModuleAudit.Proofs.Enclosing
import ModuleAudit.Proofs.RowsLeft
import ModuleAudit.Proofs.Freshness
import ModuleAudit.Proofs.VersionText
import ModuleAudit.Proofs.FullNames
import ModuleAudit.Proofs.SpareMembers
import ModuleAudit.Proofs.DefectLog
import ModuleAudit.Proofs.Cycles
import ModuleAudit.Proofs.Resolution
import ModuleAudit.Proofs.TokenOrder
