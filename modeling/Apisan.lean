import Apisan.Parse.CExpr
import Apisan.Parse.Constraints
import Apisan.Extractor.SymExpr
import Apisan.Extractor.Fidelity
import Apisan.Extractor.EventXml
import Apisan.Check.Join
import Apisan.Check.Order
import Apisan.Check.Causality
import Apisan.Check.Cache
import Apisan.Check.Overflow
import Apisan.Check.Reports
import Apisan.Check.Statistics
import Apisan.Parse.Identity
import Apisan.Extractor.Conditions
import Apisan.Parse.Recovery
import Apisan.Check.Locks
import Apisan.Check.Unparsed
import Apisan.Check.Printing
import Apisan.Extractor.Assume
import Apisan.Extractor.Callee
import Apisan.Extractor.Conjured
import Apisan.Lib.Relocation
import Apisan.Extractor.Arguments
import Apisan.Extractor.Visits
import Apisan.Extractor.Dumping
import Apisan.Check.Limits
import Apisan.Check.References
import Apisan.Check.Stores
import Apisan.Check.Followers
import Apisan.Parse.Names
import Apisan.Parse.Resolver
import Apisan.Check.Lines
import Apisan.Lib.Assumption
import Apisan.Extractor.Paths
import Apisan.Extractor.Actions
import Apisan.Extractor.Database
import Apisan.Extractor.Locations
import Apisan.Check.Knowledge
import Apisan.Check.Pipeline
import Apisan.Check.Verdicts
import Apisan.Check.Failures
import Apisan.Check.Pairs
import Apisan.Check.Literals
