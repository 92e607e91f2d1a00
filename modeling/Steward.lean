import Steward.Distinct
import Steward.Dotted
import Steward.Text.Hidden
import Steward.Text.Quoted
import Steward.Name
import Steward.Key
import Steward.Payload
import Steward.Error
import Steward.Capability
import Steward.Toml.Token
import Steward.Toml.Document
import Steward.Config
import Steward.Config.File
import Steward.Definition.Contract
import Steward.Definition.ObjectType
import Steward.Definition.Registry
import Steward.Definition.IndexedRegistry
import Steward.Memory.Group
import Steward.Memory.IndexedGroup
import Steward.Memory.Store
import Steward.Memory.View
import Steward.Memory.Access
import Steward.Memory.Ownership
import Steward.Script
import Steward.Thread
import Steward.Library
import Steward.Catalog
import Steward.Execution.Primitive
import Steward.Execution.Run
import Steward.Lock
import Steward.Session.Table
import Steward.Session.Basic
import Steward.Session.Answer
import Steward.Session.Definitions
import Steward.Session.Memory
import Steward.Session.Objects
import Steward.Session.Libraries
import Steward.Session.Calls
import Steward.Session.Run
import Steward.Memory.Users
import Steward.Proofs.Descent
import Steward.Proofs.Slots
import Steward.Proofs.SoundStore
import Steward.Proofs.SoundRun
import Steward.Proofs.Numbers
import Steward.Proofs.Tables
import Steward.Proofs.HostActions
import Steward.Proofs.SessionEffects
import Steward.Proofs.SoundSession
import Steward.Proofs.Promises
import Steward.Proofs.MemberAccess
import Steward.Proofs.Traversal
import Steward.Proofs.UniqueNames
import Steward.Proofs.Identity
import Steward.Proofs.Moments
import Steward.Proofs.Confinement
import Steward.Proofs.Gates
import Steward.Proofs.Nesting
import Steward.Proofs.Standing
import Steward.Proofs.Footprint
import Steward.Proofs.Obligations
import Steward.Proofs.DefinitionFaults
import Steward.Proofs.Loading
import Steward.Proofs.Lookups
import Steward.Proofs.Clashes
import Steward.Proofs.Changes
import Steward.Proofs.FirstWins
import Steward.Proofs.Cascade
import Steward.Proofs.ExactOwnership
import Steward.Proofs.AlikeStores
import Steward.Proofs.PrivateFields
import Steward.Proofs.Lines
import Steward.Proofs.Exclusion
import Steward.Proofs.Shelves
import Steward.Proofs.SecureRun
import Steward.Proofs.LiveLinks
import Steward.Proofs.GivenNumbers
import Steward.Proofs.StableNames
import Steward.Proofs.PrimitiveEffects
import Steward.Proofs.Assembly
import Steward.Proofs.Searches
import Steward.Proofs.Failures
import Steward.Proofs.Constructors
import Steward.Proofs.Paths
import Steward.Proofs.Arguments
import Steward.Proofs.Grammar
import Steward.Proofs.FailedSteps
import Steward.Proofs.Layout
import Steward.Proofs.AgreeingStores
import Steward.Proofs.BrokenLinks
import Steward.Proofs.SingleGroup
import Steward.Proofs.GroupAsView
import Steward.Proofs.FaultPlaces
import Steward.Proofs.NameParts
import Steward.Proofs.Refusals
import Steward.Proofs.WrittenDocuments
import Steward.Proofs.WrittenConfigs
import Steward.Proofs.FreshNumbers
import Steward.Proofs.IndexedGroups
import Steward.Proofs.IndexedRegistries
import Steward.Proofs.Inheritance
import Steward.Proofs.RepeatedNames
